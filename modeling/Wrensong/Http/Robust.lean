import Wrensong.Http.Rounds

/-!
# Which inputs the handler reads in bounds

`Readable s` is a grammar: the received bytes `s` name no known method, or they are a request line with its two spaces
and its `\r` and a header block (`HeaderBlock`) in which every line the loop examines is closed. The result is that the
accesses of `parseRequest` on `s` are all in order exactly when `s` is readable (`clean_iff_readable`).

The induction is on the rounds left in the header loop. The invariant is that the buffer is `pre ++ (rest ++ [NUL])`,
where `rest` are the received bytes behind the cursor, untouched so far.
-/

namespace Wrensong.Http

open Wrensong.Lib.Bytes

/-! ### The grammar -/

/-- **What `n` rounds of the header loop can read.** Either no round is left, or the string ends here, or there is an
empty line and a byte behind its `\r`, or there is a line with a colon, its `\r` and a byte behind it, and then a block
for one round less. In the last round the line may also be cut off by the end of the string, unless its colon is the
last byte received. -/
def HeaderBlock : ℕ → List UInt8 → Prop
  | 0, _ => True
  | n + 1, rest =>
    Stops none rest ∨ (∃ x t, rest = CR :: x :: t) ∨
    (∃ key r x t, Clear (some COLON) key ∧ Clear (some CR) (key ++ r) ∧
      rest = key ++ COLON :: r ++ CR :: x :: t ∧ HeaderBlock n t) ∨
    (n = 0 ∧ ∃ key r u, Clear (some COLON) key ∧ Clear (some CR) (key ++ r) ∧ Stops none u ∧ (r ≠ [] ∨ u ≠ []) ∧
      rest = key ++ COLON :: r ++ u)

/-- **The bytes the handler reads in bounds**: an unknown method, or a request line that is closed by `\r` and one more
byte, and a header block. -/
def Readable (s : List UInt8) : Prop :=
  (∃ m u, s = m ++ u ∧ Clear (some SP) m ∧ Stops (some SP) u ∧ ¬ Known m) ∨
  (∃ m p v x t, s = m ++ SP :: (p ++ SP :: (v ++ CR :: x :: t)) ∧ Known m ∧ Clear (some SP) p ∧
    Clear (some CR) v ∧ HeaderBlock maxHeaders t)

/-! ### The grammar on a list that is already cut -/

section Cut

variable {n : ℕ} {tok t u : List UInt8}

lemma colon_line_clear {key r : List UInt8} (h : Clear (some CR) (key ++ r)) :
    Clear (some CR) (key ++ COLON :: r) := by
  rw [clear_append] at h
  rw [clear_append, clear_cons]
  exact ⟨h.1, ⟨by decide, by decide⟩, h.2⟩

lemma clear_of_colon_line {key r : List UInt8} (h : Clear (some CR) (key ++ COLON :: r)) :
    Clear (some CR) (key ++ r) := by
  rw [clear_append, clear_cons] at h
  rw [clear_append]
  exact ⟨h.1, h.2.2⟩

/-- The block on a line that ends in `\r`. -/
lemma headerBlock_cr (ht : Clear (some CR) tok) :
    HeaderBlock (n + 1) (tok ++ CR :: t) ↔ (tok = [] ∧ t ≠ []) ∨
      ∃ key r x t', Clear (some COLON) key ∧ tok = key ++ COLON :: r ∧ t = x :: t' ∧ HeaderBlock n t' := by
  have hcr : Stops (some CR) (CR :: t) := stops_delim CR t
  constructor
  · rintro (h | ⟨x, t', h⟩ | ⟨key, r, x, t', hk, hl, h, hn⟩ | ⟨-, key, r, u, hk, hl, hu, -, h⟩)
    · exfalso
      cases tok with
      | nil => exact absurd (stops_none_cons.1 h) (by decide)
      | cons b tok => exact (clear_cons.1 ht).1.1 (stops_none_cons.1 h)
    · obtain ⟨h1, h2⟩ := scan_unique (show _ = [] ++ CR :: x :: t' from h) ht clear_nil hcr (stops_delim CR _)
      simp only [List.cons.injEq, true_and] at h2
      exact Or.inl ⟨h1, by simp [h2]⟩
    · obtain ⟨h1, h2⟩ := scan_unique h ht (colon_line_clear hl) hcr (stops_delim CR _)
      simp only [List.cons.injEq, true_and] at h2
      exact Or.inr ⟨key, r, x, t', hk, h1, h2, hn⟩
    · obtain ⟨-, h2⟩ := scan_unique h ht (colon_line_clear hl) hcr hu.of_none
      rw [← h2] at hu
      exact absurd (stops_none_cons.1 hu) (by decide)
  · rintro (⟨rfl, h⟩ | ⟨key, r, x, t', hk, rfl, rfl, hn⟩)
    · obtain ⟨x, t', rfl⟩ := List.exists_cons_of_ne_nil h
      exact Or.inr (Or.inl ⟨x, t', rfl⟩)
    · exact Or.inr (Or.inr (Or.inl ⟨key, r, x, t', hk, clear_of_colon_line ht, rfl, hn⟩))

/-- The block on a line that the end of the string cuts off. -/
lemma headerBlock_end (ht : Clear (some CR) tok) (hu : Stops none u) :
    HeaderBlock (n + 1) (tok ++ u) ↔ tok = [] ∨
      (n = 0 ∧ ∃ key r, Clear (some COLON) key ∧ tok = key ++ COLON :: r ∧ (r ≠ [] ∨ u ≠ [])) := by
  constructor
  · rintro (h | ⟨x, t', h⟩ | ⟨key, r, x, t', hk, hl, h, hn⟩ | ⟨hn, key, r, u', hk, hl, hu', hne, h⟩)
    · cases tok with
      | nil => exact Or.inl rfl
      | cons b tok => exact absurd (stops_none_cons.1 h) (clear_cons.1 ht).1.1
    · obtain ⟨-, h2⟩ := scan_unique (show _ = [] ++ CR :: x :: t' from h) ht clear_nil hu.of_none (stops_delim CR _)
      rw [h2] at hu
      exact absurd (stops_none_cons.1 hu) (by decide)
    · obtain ⟨-, h2⟩ := scan_unique h ht (colon_line_clear hl) hu.of_none (stops_delim CR _)
      rw [h2] at hu
      exact absurd (stops_none_cons.1 hu) (by decide)
    · obtain ⟨h1, h2⟩ := scan_unique h ht (colon_line_clear hl) hu.of_none hu'.of_none
      exact Or.inr ⟨hn, key, r, hk, h1, h2 ▸ hne⟩
  · rintro (rfl | ⟨rfl, key, r, hk, rfl, hne⟩)
    · exact Or.inl hu
    · exact Or.inr (Or.inr (Or.inr ⟨rfl, key, r, u, hk, clear_of_colon_line ht, hu, hne, rfl⟩))

section Colon

variable {key r : List UInt8} {x : UInt8}

/-- The block on a closed line. -/
lemma headerBlock_line (ht : Clear (some CR) (key ++ COLON :: r)) (hk : Clear (some COLON) key) :
    HeaderBlock (n + 1) (key ++ COLON :: r ++ CR :: x :: t) ↔ HeaderBlock n t := by
  rw [headerBlock_cr ht]
  constructor
  · rintro (⟨h, -⟩ | ⟨_, _, _, _, -, -, h, hn⟩)
    · simp at h
    · obtain ⟨-, rfl⟩ := List.cons.inj h
      exact hn
  · exact fun hn => Or.inr ⟨key, r, x, t, hk, rfl, rfl, hn⟩

/-- The block on a line with a colon that the end of the string cuts off. -/
lemma headerBlock_cut (ht : Clear (some CR) (key ++ COLON :: r)) (hk : Clear (some COLON) key) (hu : Stops none u) :
    HeaderBlock (n + 1) (key ++ COLON :: r ++ u) ↔ n = 0 ∧ (r ≠ [] ∨ u ≠ []) := by
  rw [headerBlock_end ht hu]
  constructor
  · rintro (h | ⟨hn, key', r', hk', h, hne⟩)
    · simp at h
    · obtain ⟨-, h2⟩ := scan_unique h hk hk' (stops_delim _ _) (stops_delim _ _)
      obtain ⟨-, rfl⟩ := List.cons.inj h2
      exact ⟨hn, hne⟩
  · exact fun h => Or.inr ⟨h.1, key, r, hk, rfl, h.2⟩

end Colon

end Cut

/-! ### The header loop -/

lemma clean_of_log {m m' : Mem} {n : ℕ} {log : List Access} (h : m'.log = m.log ++ log) :
    m'.Clean n ↔ m.Clean n ∧ ∀ a ∈ log, a.Allowed n := by
  unfold Mem.Clean
  rw [h, List.forall_mem_append]

lemma not_clean_of_mem {m : Mem} {n : ℕ} {a : Access} (ha : a ∈ m.log) (h : ¬ a.Allowed n) : ¬ m.Clean n :=
  fun hc => h (hc a ha)

lemma not_clean_wild {m : Mem} {n : ℕ} (h : .strsep .wild ∈ m.log) : ¬ m.Clean n :=
  not_clean_of_mem h (by simp [Access.Allowed, Cursor.Inside])

/-- A header line without a colon is not read in order. -/
lemma not_clean_noColon {m : Mem} {pre line y : List UInt8} {i n : ℕ} {l : Locals} {β : Type}
    (f : Locals → Handler β) (hb : m.buf = pre ++ (line ++ NUL :: y)) (hi : i = pre.length)
    (hk : Clear (some COLON) line) : ¬ ((readHeader (.off i) l >>= f) m).2.Clean n := by
  rw [bind_error (readHeader_noColon l hb hi hk)]
  exact not_clean_wild (by simp)

section Round

variable {n N : ℕ} {tok key r t u y pre : List UInt8} {x : UInt8} {l : Locals} {m : Mem} {i : ℕ}

/-- A round on a line with a colon that the end of the string cuts off. -/
lemma cut_clean_iff (hb : m.buf = pre ++ (key ++ COLON :: r ++ NUL :: y)) (hi : i = pre.length)
    (hN : N = pre.length + (key ++ COLON :: r).length + y.length) (htok : Clear (some CR) (key ++ COLON :: r))
    (hkey : Clear (some COLON) key) (hy : y = [] ∨ NUL ∈ y) :
    (parseHeaders (n + 1) (.off i) l m).2.Clean N ↔ m.Clean N ∧ n = 0 ∧ ¬ (r = [] ∧ y = []) := by
  have hr : Clear none r := by
    rw [clear_append, clear_cons] at htok
    exact htok.2.2.noNul
  rw [round_nul n l hb hi htok (by simp)]
  simp only [List.length_append, List.length_cons] at hN
  set m1 : Mem := { m with log := m.log ++ [.strsep (.off i), .step .wild, .read (.off i)] } with hm1
  have hb1 : m1.buf = pre ++ (key ++ COLON :: (r ++ NUL :: y)) := by simpa using hb
  by_cases hry : r = [] ∧ y = []
  · -- the value would start behind the `NUL`
    refine iff_of_false ?_ (by simp [hry])
    obtain ⟨rfl, rfl⟩ := hry
    obtain ⟨h1, h2⟩ := readHeader_over l hb1 hi hkey
    rw [bind_error (Prod.ext h1 rfl)]
    refine not_clean_of_mem (a := .step (.off (i + key.length + 2))) (by rw [h2]; simp) ?_
    simp only [Access.Allowed, List.length_nil] at hN ⊢
    omega
  obtain ⟨log, hread, hlog⟩ := readHeader_ok l hb1 hi hkey hr
    (fun h => hy.resolve_left fun h' => hry ⟨h, h'⟩)
  have hpos : i + key.length + 2 ≤ N := by
    by_contra hlt
    exact hry ⟨List.length_eq_zero_iff.1 (by omega), List.length_eq_zero_iff.1 (by omega)⟩
  have hmid : ∀ a ∈ [Access.strsep (.off i), .step .wild, .read (.off i)], a.Allowed N := by
    simp [Access.Allowed, Cursor.Inside]
    omega
  rw [bind_ok hread]
  cases n with
  | zero =>
    simp only [parseHeaders, pure_apply, hry, not_false_eq_true, and_true]
    rw [clean_of_log (m := m) (List.append_assoc _ _ _)]
    simp only [List.forall_mem_append]
    exact ⟨fun h => h.1, fun h => ⟨h, hmid, hlog N hpos⟩⟩
  | succ n =>
    refine iff_of_false ?_ (by simp)
    rw [parseHeaders_wild]
    exact not_clean_wild (by simp [Mem.note])

/-- A round on what the end of the string cuts off. -/
lemma end_clean_iff (hb : m.buf = pre ++ (tok ++ NUL :: y)) (hi : i = pre.length)
    (hN : N = pre.length + tok.length + y.length) (htok : Clear (some CR) tok) (hu : Stops none u)
    (huy : u = [] ↔ y = []) (hy : y = [] ∨ NUL ∈ y) :
    (parseHeaders (n + 1) (.off i) l m).2.Clean N ↔ m.Clean N ∧ HeaderBlock (n + 1) (tok ++ u) := by
  rcases eq_or_ne tok [] with rfl | hne
  · rw [round_stop n l hb hi, clean_of_log (m := m) rfl, headerBlock_end htok hu]
    simp [Access.Allowed, Cursor.Inside, hN, hi]
  obtain ⟨key, r, hkey, rfl⟩ | hnc := htok.noNul.split (d := COLON)
  · rw [cut_clean_iff hb hi hN htok hkey hy, headerBlock_cut htok hkey hu, ← huy, not_and_or]
  · rw [round_nul n l hb hi htok hne, headerBlock_end htok hu]
    refine iff_of_false (not_clean_noColon _ (show _ = pre ++ (tok ++ NUL :: y) from hb) hi hnc) ?_
    rintro ⟨-, h | ⟨-, key, r, -, rfl, -⟩⟩
    · exact hne h
    · exact (hnc COLON (by simp)).2 rfl

/-- **A round on a closed line** accesses nothing out of order and goes on behind the line. -/
lemma round_closed (hb : m.buf = pre ++ (key ++ COLON :: r ++ CR :: x :: (t ++ [NUL]))) (hi : i = pre.length)
    (hN : pre.length + (key ++ COLON :: r).length + 2 ≤ N) (htok : Clear (some CR) (key ++ COLON :: r))
    (hkey : Clear (some COLON) key) :
    ∃ l' m', parseHeaders (n + 1) (.off i) l m =
        parseHeaders n (.off (i + (key ++ COLON :: r).length + 2)) l' m' ∧
      m'.buf = (pre ++ key ++ NUL :: r ++ [NUL, x]) ++ (t ++ [NUL]) ∧ (m'.Clean N ↔ m.Clean N) := by
  have hr : Clear none r := by
    rw [clear_append, clear_cons] at htok
    exact htok.2.2.noNul
  rw [round_cr n l hb hi htok (by simp)]
  set mid : List Access :=
    [.strsep (.off i), .step (.off (i + (key ++ COLON :: r).length + 2)), .read (.off i)] with hmid
  obtain ⟨log, hread, hlog⟩ := readHeader_ok (y := x :: (t ++ [NUL])) l
    (m := { m with buf := pre ++ (key ++ COLON :: r ++ NUL :: x :: (t ++ [NUL])), log := m.log ++ mid })
    (by simp) hi hkey hr (by simp)
  rw [bind_ok hread]
  refine ⟨_, _, rfl, by simp, ?_⟩
  rw [clean_of_log (m := m) (List.append_assoc _ _ _), and_iff_left_iff_imp, List.forall_mem_append]
  intro _
  simp only [List.length_append, List.length_cons] at hN
  refine ⟨?_, hlog N (by omega)⟩
  simp only [hmid, List.forall_mem_cons, Access.Allowed, Cursor.Inside, List.length_append, List.length_cons]
  exact ⟨by omega, by omega, by omega, by simp⟩

/-- A line with its `\r` at the end of the received bytes: the cursor is stepped over the `NUL`. -/
lemma not_clean_lastReturn (hb : m.buf = pre ++ (tok ++ CR :: [NUL])) (hi : i = pre.length)
    (hN : N = pre.length + tok.length + 1) (htok : Clear (some CR) tok) (hne : tok ≠ []) :
    ¬ (parseHeaders (n + 1) (.off i) l m).2.Clean N := by
  rw [round_cr n l hb hi htok hne]
  refine not_clean_of_extends ((extends_readHeader _ _).bind fun _ => extends_parseHeaders _ _ _) ?_
  refine not_clean_of_mem (a := .step (.off (i + tok.length + 2))) (by simp) ?_
  simp only [Access.Allowed]
  omega

end Round

/-- **The header loop reads a block in order exactly when the block is in the grammar.** -/
theorem parseHeaders_clean_iff {n N : ℕ} {rest pre : List UInt8} {l : Locals} {m : Mem} {i : ℕ}
    (hb : m.buf = pre ++ (rest ++ [NUL])) (hi : i = pre.length) (hN : N = pre.length + rest.length) :
    (parseHeaders n (.off i) l m).2.Clean N ↔ m.Clean N ∧ HeaderBlock n rest := by
  induction n generalizing rest pre l m i with
  | zero => simp [parseHeaders, HeaderBlock]
  | succ n ih =>
    obtain ⟨tok, htok, ⟨t, rfl⟩ | hend⟩ := scan_cases CR rest
    · -- the line ends in `\r`
      have hb' : m.buf = pre ++ (tok ++ CR :: (t ++ [NUL])) := by rw [hb]; simp
      have hlen : N = pre.length + tok.length + 1 + t.length := by rw [hN]; simp; omega
      rcases eq_or_ne tok [] with rfl | hne
      · rw [round_blank n l hb' hi, clean_of_log (m := m) rfl, headerBlock_cr htok]
        have hpos : t ≠ [] ↔ 0 < t.length := List.length_pos_iff.symm
        rw [List.length_nil] at hlen
        simp [Access.Allowed, Cursor.Inside, hpos]
        omega
      cases t with
      | nil =>
        refine iff_of_false (not_clean_lastReturn hb' hi hlen htok hne) ?_
        rw [headerBlock_cr htok]
        rintro ⟨-, h | ⟨_, _, _, _, -, -, h, -⟩⟩
        · exact hne h.1
        · simp at h
      | cons x t =>
        rw [List.length_cons] at hlen
        obtain ⟨key, r, hkey, rfl⟩ | hnc := htok.noNul.split (d := COLON)
        · obtain ⟨l', m', hround, hbuf, hclean⟩ := round_closed (n := n) (l := l) (N := N) hb' hi (by omega) htok hkey
          rw [hround, ih hbuf (by simp [hi]; omega) (by simp at hlen ⊢; omega), hclean, headerBlock_line htok hkey]
        · rw [round_cr n l hb' hi htok hne, headerBlock_cr htok]
          refine iff_of_false (not_clean_noColon _ (show _ = pre ++ (tok ++ NUL :: (x :: t ++ [NUL])) from rfl) hi hnc) ?_
          rintro ⟨-, h | ⟨key, r, x, t', -, rfl, -, -⟩⟩
          · exact hne h.1
          · exact (hnc COLON (by simp)).2 rfl
    · rcases hend with ⟨t, rfl⟩ | rfl
      · exact end_clean_iff (y := t ++ [NUL]) (by rw [hb]; simp) hi (by rw [hN]; simp; omega) htok (stops_nul _ _)
          (by simp) (Or.inr (by simp))
      · have h := end_clean_iff (n := n) (u := []) (y := []) (l := l) (N := N) (m := m) (by rw [hb]) hi (by simpa using hN)
          htok (by simp [Stops]) (by simp) (Or.inl rfl)
        simpa using h

/-! ### The request line -/

/-- **The handler behind the method reads in order exactly a closed request line and a header block.** -/
lemma parseAfterMethod_clean_iff {req : HttpRequest} {pre s : List UInt8} {m : Mem} {i N : ℕ}
    (hb : m.buf = pre ++ (s ++ [NUL])) (hi : i = pre.length) (hN : N = pre.length + s.length) :
    (parseAfterMethod req (.off i) m).2.Clean N ↔ m.Clean N ∧ ∃ p v x t, s = p ++ SP :: (v ++ CR :: x :: t) ∧
      Clear (some SP) p ∧ Clear (some CR) v ∧ HeaderBlock maxHeaders t := by
  obtain ⟨p, hp, ⟨s, rfl⟩ | hend⟩ := scan_cases SP s
  · obtain ⟨v, hv, ⟨t, rfl⟩ | hend⟩ := scan_cases CR s
    · have hline := parseAfterMethod_line req (y := t ++ [NUL]) (by rw [hb]; simp) hi hp hv
      rw [hline]
      cases t with
      | nil =>
        refine iff_of_false ?_ ?_
        · refine not_clean_of_extends (extends_parseHeaders _ _ _) ?_
          refine not_clean_of_mem (a := .step (.off (i + p.length + v.length + 3))) (by simp) ?_
          simp [Access.Allowed, hN, hi]
          omega
        · rintro ⟨-, p', v', x, t, h, hp', hv', -⟩
          obtain ⟨-, h1⟩ := scan_unique h hp hp' (stops_delim _ _) (stops_delim _ _)
          obtain ⟨-, h2⟩ := scan_unique (List.cons.inj h1).2 hv hv' (stops_delim _ _) (stops_delim _ _)
          simp at h2
      | cons x t =>
        rw [parseHeaders_clean_iff (show _ = (pre ++ p ++ NUL :: v ++ [NUL, x]) ++ (t ++ [NUL]) by simp)
          (by simp [hi]; omega) (by simp [hN]; omega), clean_of_log (m := m) rfl]
        have hcut : (∃ p' v' x' t', p ++ SP :: (v ++ CR :: x :: t) = p' ++ SP :: (v' ++ CR :: x' :: t') ∧
            Clear (some SP) p' ∧ Clear (some CR) v' ∧ HeaderBlock maxHeaders t') ↔ HeaderBlock maxHeaders t := by
          constructor
          · rintro ⟨p', v', x', t', h, hp', hv', hn⟩
            obtain ⟨-, h1⟩ := scan_unique h hp hp' (stops_delim _ _) (stops_delim _ _)
            obtain ⟨-, h2⟩ := scan_unique (List.cons.inj h1).2 hv hv' (stops_delim _ _) (stops_delim _ _)
            simp only [List.cons.injEq, true_and] at h2
            rwa [h2.2]
          · exact fun hn => ⟨p, v, x, t, rfl, hp, hv, hn⟩
        have hmid : ∀ a ∈ [Access.strsep (.off i), .strsep (.off (i + p.length + 1)),
            .step (.off (i + p.length + v.length + 3))], a.Allowed N := by
          simp [Access.Allowed, Cursor.Inside, hN, hi]
          omega
        rw [hcut]
        exact ⟨fun h => ⟨h.1.1, h.2⟩, fun h => ⟨⟨h.1, hmid⟩, h.2⟩⟩
    · obtain ⟨u, y, hu, rfl, hy⟩ := end_of_string hend
      have hfault := parseAfterMethod_noReturn req (m := m) (y := y) (by rw [hb, ← hy]; simp) hi hp hv
      refine iff_of_false ?_ ?_
      · rw [hfault]
        exact not_clean_wild (by simp)
      · rintro ⟨-, p', v', x, t, h, hp', hv', -⟩
        obtain ⟨-, h1⟩ := scan_unique h hp hp' (stops_delim _ _) (stops_delim _ _)
        obtain ⟨-, h2⟩ := scan_unique (List.cons.inj h1).2 hv hv' hu.of_none (stops_delim _ _)
        rw [h2] at hu
        exact absurd (stops_none_cons.1 hu) (by decide)
  · obtain ⟨u, y, hu, rfl, hy⟩ := end_of_string hend
    have hfault := parseAfterMethod_noSpace req (m := m) (y := y) (by rw [hb, ← hy]; simp) hi hp
    refine iff_of_false ?_ ?_
    · rw [hfault]
      exact not_clean_wild (by simp)
    · rintro ⟨-, p', v', x, t, h, hp', -, -⟩
      obtain ⟨-, h2⟩ := scan_unique h hp hp' hu.of_none (stops_delim _ _)
      rw [h2] at hu
      exact absurd (stops_none_cons.1 hu) (by decide)

/-- **Robustness of the parser.** On the received bytes `s`, behind which `_http_read` puts a `NUL`, the handler hands
no null or wild cursor to a string function and moves no cursor behind that `NUL` exactly when `s` is readable. -/
theorem clean_iff_readable (s : List UInt8) (b : Option ℕ) :
    (parseRequest { buffer := b, bufferLen := s.length } (.ofReceived s)).2.Clean s.length ↔ Readable s := by
  obtain ⟨m, hm, ⟨s, rfl⟩ | hend⟩ := scan_cases SP s
  · have hb : (Mem.ofReceived (m ++ SP :: s)).buf = [] ++ (m ++ SP :: (s ++ [NUL])) := by simp [Mem.ofReceived]
    have hsep := strsep_found hb (show 0 = [].length from rfl) hm (by decide)
    rw [parseRequest_token hsep rfl hm.noNul rfl]
    by_cases hk : Known m
    · rw [if_pos hk, bind_pure_apply, parseAfterMethod_clean_iff (show _ = (m ++ [NUL]) ++ (s ++ [NUL]) by simp)
        (by simp) (by simp; omega)]
      constructor
      · rintro ⟨-, p, v, x, t, rfl, hp, hv, hn⟩
        exact Or.inr ⟨m, p, v, x, t, rfl, hk, hp, hv, hn⟩
      · rintro (⟨m', u, h, hm', hu, hk'⟩ | ⟨m', p, v, x, t, h, hk', hp, hv, hn⟩)
        · obtain ⟨rfl, -⟩ := scan_unique h hm hm' (stops_delim _ _) hu
          exact absurd hk hk'
        · obtain ⟨rfl, h2⟩ := scan_unique h hm hk'.clear (stops_delim _ _) (stops_delim _ _)
          refine ⟨?_, p, v, x, t, (List.cons.inj h2).2, hp, hv, hn⟩
          simp [Mem.Clean, Mem.note, Mem.ofReceived, Access.Allowed, Cursor.Inside]
    · rw [if_neg hk]
      refine iff_of_true ?_ (Or.inl ⟨m, SP :: s, rfl, hm, stops_delim _ _, hk⟩)
      simp [Mem.Clean, Mem.note, Mem.ofReceived, Access.Allowed, Cursor.Inside]
  · obtain ⟨u, y, hu, rfl, hy⟩ := end_of_string hend
    have hb : (Mem.ofReceived (m ++ u)).buf = [] ++ (m ++ NUL :: y) := by simp [Mem.ofReceived, ← hy]
    have hsep := strsep_nul hb (show 0 = [].length from rfl) hm
    rw [parseRequest_token hsep hb hm.noNul rfl]
    by_cases hk : Known m
    · refine iff_of_false ?_ ?_
      · rw [if_pos hk, bind_pure_apply, parseAfterMethod_null]
        exact not_clean_wild (by simp)
      · rintro (⟨m', u', h, hm', hu', hk'⟩ | ⟨m', p, v, x, t, h, hk', -⟩)
        · obtain ⟨rfl, -⟩ := scan_unique h hm hm' hu.of_none hu'
          exact hk' hk
        · obtain ⟨-, h2⟩ := scan_unique h hm hk'.clear hu.of_none (stops_delim _ _)
          rw [h2] at hu
          exact absurd (stops_none_cons.1 hu) (by decide)
    · rw [if_neg hk]
      refine iff_of_true ?_ (Or.inl ⟨m, u, rfl, hm, hu.of_none, hk⟩)
      simp [Mem.Clean, Mem.note, Mem.ofReceived, Access.Allowed, Cursor.Inside]

/-- A request line without a space is a well-formed input of the handler that it does not read in bounds. -/
theorem not_clean_of_bare_method :
    ¬ ∀ s : List UInt8, s ≠ [] →
      (parseRequest { buffer := some 0, bufferLen := s.length } (.ofReceived s)).2.Clean s.length := by
  intro h
  exact absurd (h (bytes "GET") (by decide)) (by decide)

end Wrensong.Http
