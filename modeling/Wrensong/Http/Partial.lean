import Wrensong.Http.Message

/-!
# What the handler makes of the beginning of a stream

The buffer of a job ends where the bytes that have arrived end. `Shown` says in which cases the handler gets through such
a buffer all the same, and with which fields: the bytes end exactly behind the request line or one of the first 127 header
lines, or somewhere behind the last header line, or the loop is over before it meets the end. `yields_parseHeaders` is
this for the header loop, and `outcome_eq_some_iff` for a whole parse.
-/

namespace Wrensong.Http

open Wrensong.Lib.Bytes

/-! ### Requests -/

/-- A well-formed request: no `NUL` in the head, and some text behind the colon of each header line. What stands behind
the blank line is the body. -/
structure Request extends Message where
  method_noNul : NUL ∉ method
  path_noNul : NUL ∉ path
  version_noNul : NUL ∉ version
  headers_plain : ∀ h ∈ headers, h.Plain

/-- The request line. -/
def Request.line (q : Request) : List UInt8 := q.method ++ SP :: (q.path ++ SP :: (q.version ++ CR :: [LF]))

/-- The fields behind some more header lines. -/
def Fields.store (f : Fields) (hs : List HeaderLine) : Fields := hs.foldl (fun f h => f.set h.name h.text.tail) f

/-- The fields behind the request line. -/
def Request.base (q : Request) : Fields := { method := findMethod q.method .unknown, path := some q.path }

/-- What the handler makes of a request that stands alone in its buffer: nothing, if the method is unknown. -/
def Request.fields (q : Request) : Option Fields :=
  if Known q.method then some (q.base.store (q.headers.take maxHeaders)) else none

lemma Request.fields_eq_none (q : Request) : q.fields = none ↔ ¬ Known q.method := by
  unfold Request.fields
  split_ifs with h <;> simp [h]

lemma Request.wire_eq (q : Request) :
    q.wire = q.line ++ (q.headers.flatMap HeaderLine.line ++ CR :: LF :: q.body) := by
  simp [Message.wire, Message.block, Request.line]

/-- The number of bytes of some header lines. -/
def lineBytes (hs : List HeaderLine) : ℕ := (hs.flatMap HeaderLine.line).length

/-- **What `k` bytes of a header block show** in `n` rounds, from the fields `f` on. Either the bytes end exactly behind
some of the lines, fewer than there are rounds, or they reach beyond all lines; or they reach into the text of the line of
the last round, which is then cut off. -/
def Shown (n : ℕ) (hs : List HeaderLine) (k : ℕ) (f g : Fields) : Prop :=
  (∃ hs₁ hs₂, hs = hs₁ ++ hs₂ ∧ hs₁.length < n ∧ (k = lineBytes hs₁ ∨ (hs₂ = [] ∧ lineBytes hs₁ < k)) ∧
    g = f.store hs₁) ∨
  (∃ hs₁ h hs₂, hs = hs₁ ++ h :: hs₂ ∧ hs₁.length + 1 = n ∧ lineBytes hs₁ + h.name.length + 2 ≤ k ∧
    g = (f.store hs₁).set h.name (h.text.take (k - lineBytes hs₁ - h.name.length - 1)).tail)

/-- The bytes received, `k` of them, show the fields `f` as the beginning of the request. -/
def Request.Shows (q : Request) (k : ℕ) (f : Fields) : Prop :=
  q.line.length ≤ k ∧ Shown maxHeaders q.headers (k - q.line.length) q.base f

section Shown

variable {n k : ℕ} {h : HeaderLine} {hs : List HeaderLine} {f g : Fields}

@[simp] lemma lineBytes_nil : lineBytes [] = 0 := rfl

@[simp] lemma lineBytes_cons (h : HeaderLine) (hs : List HeaderLine) :
    lineBytes (h :: hs) = h.line.length + lineBytes hs := by
  simp [lineBytes]

@[simp] lemma store_nil (f : Fields) : f.store [] = f := rfl

@[simp] lemma store_cons (f : Fields) (h : HeaderLine) (hs : List HeaderLine) :
    f.store (h :: hs) = (f.set h.name h.text.tail).store hs := rfl

lemma HeaderLine.length_line (h : HeaderLine) : h.line.length = h.name.length + h.text.length + 3 := by
  simp [HeaderLine.line]
  omega

/-- No byte is left. -/
lemma shown_zero : Shown (n + 1) hs 0 f g ↔ g = f := by
  constructor
  · rintro (⟨hs₁, hs₂, -, -, hk | ⟨-, hk⟩, rfl⟩ | ⟨hs₁, h, hs₂, -, -, hk, -⟩)
    · cases hs₁ with
      | nil => rfl
      | cons h hs₁ =>
        rw [lineBytes_cons, h.length_line] at hk
        omega
    · omega
    · omega
  · rintro rfl
    exact Or.inl ⟨[], hs, rfl, Nat.succ_pos n, Or.inl rfl, rfl⟩

/-- No line is left. -/
lemma shown_nil (hk : 0 < k) : Shown (n + 1) [] k f g ↔ g = f := by
  constructor
  · rintro (⟨hs₁, hs₂, h, -, -, rfl⟩ | ⟨hs₁, h, hs₂, he, -⟩)
    · rw [(List.append_eq_nil_iff.1 h.symm).1]
      rfl
    · simp at he
  · rintro rfl
    exact Or.inl ⟨[], [], rfl, Nat.succ_pos n, Or.inr ⟨rfl, hk⟩, rfl⟩

/-- The line of the last round. -/
lemma shown_last (hk : 0 < k) :
    Shown 1 (h :: hs) k f g ↔
      h.name.length + 2 ≤ k ∧ g = f.set h.name (h.text.take (k - h.name.length - 1)).tail := by
  constructor
  · rintro (⟨hs₁, hs₂, he, hn, hkk, -⟩ | ⟨hs₁, h', hs₂, he, hn, hkk, hg⟩)
    · obtain rfl : hs₁ = [] := List.length_eq_zero_iff.1 (by omega)
      rcases hkk with rfl | ⟨rfl, -⟩
      · simp at hk
      · simp at he
    · obtain rfl : hs₁ = [] := List.length_eq_zero_iff.1 (by omega)
      rw [List.nil_append, List.cons.injEq] at he
      obtain ⟨rfl, rfl⟩ := he
      simp only [lineBytes_nil, Nat.zero_add, Nat.sub_zero, store_nil] at hkk hg
      exact ⟨hkk, hg⟩
  · rintro ⟨hkk, rfl⟩
    refine Or.inr ⟨[], h, hs, rfl, rfl, by simpa using hkk, ?_⟩
    rw [lineBytes_nil, Nat.sub_zero, store_nil]

/-- A line that is cut off before the last round. -/
lemma not_shown_cut (hk : 0 < k) (hlt : k < h.line.length) : ¬ Shown (n + 2) (h :: hs) k f g := by
  rintro (⟨hs₁, hs₂, he, hn, hkk, -⟩ | ⟨hs₁, h', hs₂, he, hn, hkk, -⟩)
  · cases hs₁ with
    | nil =>
      rcases hkk with rfl | ⟨rfl, -⟩
      · simp at hk
      · simp at he
    | cons h₁ hs₁ =>
      obtain rfl := (List.cons.inj he).1
      simp only [lineBytes_cons] at hkk
      omega
  · cases hs₁ with
    | nil => simp at hn
    | cons h₁ hs₁ =>
      obtain rfl := (List.cons.inj he).1
      simp only [lineBytes_cons] at hkk
      omega

/-- A whole line before the last round. -/
lemma shown_cons : Shown (n + 2) (h :: hs) (h.line.length + k) f g ↔
    Shown (n + 1) hs k (f.set h.name h.text.tail) g := by
  constructor
  · rintro (⟨hs₁, hs₂, he, hn, hkk, hg⟩ | ⟨hs₁, h', hs₂, he, hn, hkk, hg⟩)
    · cases hs₁ with
      | nil =>
        rcases hkk with hkk | ⟨rfl, -⟩
        · rw [h.length_line] at hkk
          simp at hkk
        · simp at he
      | cons h₁ hs₁ =>
        obtain ⟨rfl, rfl⟩ := List.cons.inj he
        refine Or.inl ⟨hs₁, hs₂, rfl, by simpa using hn, ?_, hg⟩
        simpa using hkk
    · cases hs₁ with
      | nil => simp at hn
      | cons h₁ hs₁ =>
        obtain ⟨rfl, rfl⟩ := List.cons.inj he
        refine Or.inr ⟨hs₁, h', hs₂, rfl, by simpa using hn, ?_, ?_⟩
        · simp only [lineBytes_cons] at hkk
          omega
        · rw [hg, lineBytes_cons, Nat.add_sub_add_left]
          rfl
  · rintro (⟨hs₁, hs₂, rfl, hn, hkk, rfl⟩ | ⟨hs₁, h', hs₂, rfl, hn, hkk, rfl⟩)
    · refine Or.inl ⟨h :: hs₁, hs₂, rfl, by simpa using hn, ?_, rfl⟩
      simpa using hkk
    · refine Or.inr ⟨h :: hs₁, h', hs₂, rfl, by simpa using hn, ?_, ?_⟩
      · simp only [lineBytes_cons]
        omega
      · rw [lineBytes_cons, Nat.add_sub_add_left]
        rfl

/-- A whole header block shows the lines that there are rounds for. -/
lemma shown_all (hk : lineBytes hs < k) : Shown (n + 1) hs k f (f.store (hs.take (n + 1))) := by
  induction hs generalizing n k f with
  | nil => exact (shown_nil hk).2 (by simp)
  | cons h hs ih =>
    rw [lineBytes_cons] at hk
    obtain ⟨k, rfl⟩ := Nat.exists_eq_add_of_le (show h.line.length ≤ k by omega)
    rw [List.take_succ_cons, store_cons]
    cases n with
    | zero =>
      have htake : h.text.take (h.line.length + k - h.name.length - 1) = h.text := by
        refine List.take_of_length_le ?_
        rw [h.length_line]
        omega
      have hlen := h.length_line
      rw [shown_last (by omega), htake]
      exact ⟨by omega, by simp⟩
    | succ n =>
      rw [shown_cons]
      exact ih (by omega)

end Shown

/-! ### The header loop -/

/-- The fields the handler ends with; `none` is a fault. -/
def yields : Except Fault (Cursor × Locals) × Mem → Option Fields
  | (.ok (_, l), m) => some (l.fieldsIn m.buf)
  | (.error _, _) => none

section Loop

variable {m : Mem} {pre x : List UInt8} {i n : ℕ} {l : Locals} {h : HeaderLine}

/-- A round on a header line whose value is in the buffer, up to the cursor `c` behind the line: the rounds to come start
at `c`. -/
lemma yields_value {k r t : List UInt8} {c : Cursor} (hl : l.Settled pre)
    (hb : m.buf = pre ++ (k ++ COLON :: (r ++ NUL :: t))) (hi : i = pre.length) (hk : Clear (some COLON) k)
    (hr : Clear none r) (hne : r ≠ [])
    (hstop : ∀ n' l' m', m'.buf.length = m.buf.length → yields (parseHeaders (n' + 1) c l' m') = none) :
    yields ((readHeader (.off i) l >>= parseHeaders n c) m) =
      if n = 0 then some ((l.fieldsIn pre).set k r.tail) else none := by
  obtain ⟨log, hread, -⟩ := readHeader_ok l hb hi hk hr fun e => absurd e hne
  have hval : valueOf r t = r.tail := if_neg hne
  rw [hval] at hread
  rw [bind_ok hread]
  cases n with
  | zero =>
    rw [if_pos rfl]
    exact congrArg some (hl.setValue hne hr (by rw [hi])).2
  | succ n =>
    rw [if_neg (by omega)]
    refine hstop n _ _ ?_
    simp [hb]

/-- The buffer ends in the text of a header line: the cursor behind the line is wild. -/
lemma yields_cutText {y : List UInt8} (hl : l.Settled pre) (hp : h.Plain) (hy : y <+: h.text) (hne : y ≠ [])
    (hb : m.buf = pre ++ ((h.name ++ COLON :: y) ++ [NUL])) (hi : i = pre.length) :
    yields (parseHeaders (n + 1) (.off i) l m) =
      if n = 0 then some ((l.fieldsIn pre).set h.name y.tail) else none := by
  have hclear : Clear (some CR) (h.name ++ COLON :: y) := by
    refine hp.line_clear.of_prefix ?_
    rw [List.prefix_append_right_inj, List.prefix_cons_inj]
    exact hy
  have hwild : ∀ n' l' m', m'.buf.length = m.buf.length → yields (parseHeaders (n' + 1) .wild l' m') = none := by
    intro n' l' m' _
    rw [parseHeaders_wild]
    rfl
  rw [round_nul n l hb hi hclear (by simp)]
  exact yields_value (m := { m with log := m.log ++ [_, _, _] }) hl
    (show m.buf = pre ++ (h.name ++ COLON :: (y ++ NUL :: [])) by simp [hb]) hi hp.name_clear
    (hp.text_clear.of_prefix hy).noNul hne hwild

/-- Only the line feed is missing: the cursor behind the line is outside the buffer. -/
lemma yields_noFeed (hl : l.Settled pre) (hp : h.Plain)
    (hb : m.buf = pre ++ ((h.name ++ COLON :: h.text) ++ CR :: [NUL])) (hi : i = pre.length) :
    yields (parseHeaders (n + 1) (.off i) l m) =
      if n = 0 then some ((l.fieldsIn pre).set h.name h.text.tail) else none := by
  set m1 : Mem := { m with
    buf := pre ++ ((h.name ++ COLON :: h.text) ++ NUL :: [NUL]),
    log := m.log ++ [.strsep (.off i), .step (.off (i + (h.name ++ COLON :: h.text).length + 2)),
      .read (.off i)] } with hm1
  have hb1 : m1.buf = pre ++ (h.name ++ COLON :: (h.text ++ NUL :: [NUL])) := by simp [hm1]
  have hover : ∀ n' l' m', m'.buf.length = m1.buf.length →
      yields (parseHeaders (n' + 1) (.off (i + (h.name ++ COLON :: h.text).length + 2)) l' m') = none := by
    intro n' l' m' hm'
    have hle : m'.buf.length ≤ i + (h.name ++ COLON :: h.text).length + 2 := by
      rw [hm', hb1, hi]
      simp
      omega
    rw [parseHeaders_over n' l' hle]
    rfl
  rw [round_cr n l hb hi hp.line_clear (by simp), ← hm1]
  exact yields_value (m := m1) hl hb1 hi hp.name_clear hp.text_clear.noNul hp.2.2 hover

/-- The buffer ends inside a header line. -/
lemma yields_cut (hl : l.Settled pre) (hp : h.Plain) (hx : x <+: h.line) (hne : x ≠ []) (hlt : x.length < h.line.length)
    (hb : m.buf = pre ++ (x ++ [NUL])) (hi : i = pre.length) :
    yields (parseHeaders (n + 1) (.off i) l m) =
      if n = 0 ∧ h.name.length + 2 ≤ x.length then
        some ((l.fieldsIn pre).set h.name (h.text.take (x.length - h.name.length - 1)).tail)
      else none := by
  have hline : h.line = h.name ++ COLON :: (h.text ++ CR :: [LF]) := rfl
  rw [hline] at hx
  -- the memory behind the tests of the round, where no `\r` is found
  set m1 : Mem := { m with log := m.log ++ [.strsep (.off i), .step .wild, .read (.off i)] } with hm1
  rcases prefix_append_cons hx with hx | ⟨y, rfl, hy⟩
  · -- in the name: there is no colon
    have hle := hx.length_le
    have hcr : Clear (some CR) h.name := (clear_append.1 hp.line_clear).1
    have herr := readHeader_noColon (m := m1) l hb hi (hp.name_clear.of_prefix hx)
    rw [round_nul n l hb hi (hcr.of_prefix hx) hne, ← hm1, bind_error herr, if_neg (by omega)]
    rfl
  have hlen : (h.name ++ COLON :: y).length - h.name.length - 1 = y.length := by simp
  rw [hlen]
  rcases prefix_append_cons hy with hy | ⟨z, rfl, hz⟩
  · rcases eq_or_ne y [] with rfl | hy0
    · -- behind the colon: the value would start outside the buffer
      have hclear : Clear (some CR) (h.name ++ [COLON]) := hp.line_clear.of_prefix (by simp)
      have hover := (readHeader_over (m := m1) l (show m.buf = pre ++ (h.name ++ [COLON, NUL]) by simp [hb]) hi
        hp.name_clear).1
      rw [round_nul n l hb hi hclear hne, ← hm1, bind_error (Prod.ext hover rfl), if_neg (by simp)]
      rfl
    · have htake : h.text.take y.length = y := (List.prefix_iff_eq_take.1 hy).symm
      have hpos := List.length_pos_of_ne_nil hy0
      rw [yields_cutText hl hp hy hy0 hb hi, htake]
      simp only [List.length_append, List.length_cons]
      exact if_congr (by omega) rfl rfl
  · obtain rfl : z = [] := by
      rcases List.prefix_cons_iff.1 hz with rfl | ⟨z', rfl, hz'⟩
      · rfl
      · obtain rfl := List.prefix_nil.1 hz'
        exact absurd hlt (by simp [hline])
    have htake : h.text.take (h.text ++ [CR]).length = h.text := List.take_of_length_le (by simp)
    have hpos := List.length_pos_of_ne_nil hp.2.2
    rw [yields_noFeed hl hp (by simp [hb]) hi, htake]
    simp only [List.length_append, List.length_cons]
    exact if_congr (by omega) rfl rfl

/-- The buffer ends behind the last line that was read. -/
lemma yields_stop (hl : l.Settled pre) (hb : m.buf = pre ++ [NUL]) (hi : i = pre.length) :
    yields (parseHeaders (n + 1) (.off i) l m) = some (l.fieldsIn pre) := by
  rw [round_stop n l hb hi]
  change some (l.fieldsIn m.buf) = _
  rw [hb, hl.fieldsIn_append]

/-- **The header loop on the beginning of a header block.** It ends with the fields `g` exactly if the bytes it is given
show them. -/
theorem yields_parseHeaders {hs : List HeaderLine} (hp : ∀ h ∈ hs, h.Plain) {rest : List UInt8} {g : Fields}
    (hl : l.Settled pre) (hx : x <+: hs.flatMap HeaderLine.line ++ CR :: rest) (hb : m.buf = pre ++ (x ++ [NUL]))
    (hi : i = pre.length) :
    yields (parseHeaders (n + 1) (.off i) l m) = some g ↔ Shown (n + 1) hs x.length (l.fieldsIn pre) g := by
  induction hs generalizing n pre l m x i with
  | nil =>
    rcases List.prefix_cons_iff.1 hx with rfl | ⟨x, rfl, hx⟩
    · rw [yields_stop hl hb hi, List.length_nil, shown_zero, Option.some.injEq, eq_comm]
    · rw [round_blank n l (show m.buf = pre ++ CR :: (x ++ [NUL]) by simp [hb]) hi, shown_nil (by simp)]
      change some (l.fieldsIn (pre ++ NUL :: (x ++ [NUL]))) = _ ↔ _
      rw [hl.fieldsIn_append, Option.some.injEq, eq_comm]
  | cons h hs ih =>
    have hh := hp h (List.mem_cons_self ..)
    rw [List.flatMap_cons, List.append_assoc] at hx
    rcases eq_or_ne x [] with rfl | hne
    · rw [yields_stop hl hb hi, List.length_nil, shown_zero, Option.some.injEq, eq_comm]
    have hpos := List.length_pos_of_ne_nil hne
    by_cases hle : h.line.length ≤ x.length
    · -- a whole line
      obtain ⟨x, rfl⟩ := List.prefix_of_prefix_length_le (List.prefix_append h.line _) hx hle
      obtain ⟨log, hround, -⟩ := round_plain n l hh (show m.buf = pre ++ (h.line ++ (x ++ [NUL])) by simp [hb]) hi
      obtain ⟨hset, hfields⟩ := hl.setLine hh hi
      rw [List.length_append] at hpos
      rw [hround, List.length_append]
      cases n with
      | zero =>
        have htake : h.text.take (h.line.length + x.length - h.name.length - 1) = h.text := by
          refine List.take_of_length_le ?_
          rw [h.length_line]
          omega
        rw [shown_last (by omega), htake, h.length_line, ← hfields]
        change some (_ : Fields) = _ ↔ _
        rw [hset.fieldsIn_append, Option.some.injEq, eq_comm]
        have hlen := List.length_pos_of_ne_nil hh.2.2
        exact (and_iff_right (by omega)).symm
      | succ n =>
        rw [shown_cons, ← hfields]
        refine ih (fun h' hm => hp h' (List.mem_cons_of_mem _ hm)) hset ?_ (by simp) ?_
        · exact (List.prefix_append_right_inj _).1 hx
        · rw [List.length_append, h.length_done, hi]
    · have hlt : x.length < h.line.length := by omega
      have hpre := List.prefix_of_prefix_length_le hx (List.prefix_append h.line _) hlt.le
      rw [yields_cut hl hh hpre hne hlt hb hi]
      cases n with
      | zero =>
        rw [shown_last hpos]
        by_cases hreach : h.name.length + 2 ≤ x.length
        · simp [hreach, eq_comm]
        · simp [hreach]
      | succ n => simp [not_shown_cut hpos hlt]

end Loop

/-! ### The request line -/

/-- The fields a parse ends with: none of them on the early return. The outer `none` is a fault. -/
def outcome : Except Fault (Option (Cursor × Locals)) × Mem → Option (Option Fields)
  | (.ok (some (_, l)), m) => some (some (l.fieldsIn m.buf))
  | (.ok none, _) => some none
  | (.error _, _) => none

lemma outcome_map (r : Except Fault (Cursor × Locals) × Mem) : outcome (r.1.map some, r.2) = (yields r).map some := by
  obtain ⟨e | ⟨c, l⟩, m⟩ := r
  · rfl
  · rfl

section RequestLine

variable {m : Mem} {tok t : List UInt8} {b : Option ℕ} {k : ℕ}

/-- A known method with a space behind it: the early return is not taken. -/
lemma outcome_known (hb : m.buf = tok ++ SP :: t) (hk : Known tok) :
    ∃ m1 : Mem, m1.buf = tok ++ NUL :: t ∧
      outcome (parseRequest { buffer := b, bufferLen := k } m) =
        (yields (parseAfterMethod { method := findMethod tok .unknown, buffer := b, bufferLen := k }
          (.off (tok.length + 1)) m1)).map some := by
  have hsep := strsep_found (show m.buf = [] ++ (tok ++ SP :: t) from hb) (show 0 = [].length from rfl) hk.clear (by decide)
  refine ⟨({ m.note (.strsep (.off 0)) with buf := [] ++ (tok ++ NUL :: t) } : Mem).note (.string (.off 0)), rfl, ?_⟩
  rw [parseRequest_token hsep rfl hk.clear.noNul rfl, if_pos hk, bind_pure_apply, outcome_map, Nat.zero_add]

/-- A known method that ends the buffer. -/
lemma outcome_bare (hb : m.buf = tok ++ NUL :: t) (hk : Known tok) :
    outcome (parseRequest { buffer := b, bufferLen := k } m) = none := by
  have hsep := strsep_nul (show m.buf = [] ++ (tok ++ NUL :: t) from hb) (show 0 = [].length from rfl) hk.clear
  rw [parseRequest_token hsep hb hk.clear.noNul rfl, if_pos hk, bind_error (parseAfterMethod_null _)]
  rfl

/-- **An unknown method**: the early return is taken, and it would be again. -/
lemma parse_unknown (h0 : NUL ∈ m.buf) (hk : ¬ Known (token (some SP) m.buf)) :
    ∃ m', parseRequest { buffer := b, bufferLen := k } m = (.ok none, m') ∧ NUL ∈ m'.buf ∧
      token (some SP) m'.buf = token (some SP) m.buf := by
  obtain ⟨tok, htok, ⟨t, hb⟩ | ⟨t, hb⟩ | hb⟩ := scan_cases SP m.buf
  · have htoken : token (some SP) m.buf = tok := by rw [hb, token_append htok (stops_delim SP t)]
    rw [htoken] at hk ⊢
    rw [parseRequest_token (strsep_found (show m.buf = [] ++ (tok ++ SP :: t) from hb) rfl htok (by decide)) rfl htok.noNul rfl,
      if_neg hk]
    refine ⟨_, rfl, by simp, ?_⟩
    exact token_append htok (stops_nul _ t)
  · have htoken : token (some SP) m.buf = tok := by rw [hb, token_append htok (stops_nul _ t)]
    rw [htoken] at hk
    rw [parseRequest_token (strsep_nul (show m.buf = [] ++ (tok ++ NUL :: t) from hb) rfl htok) hb htok.noNul rfl, if_neg hk]
    exact ⟨_, rfl, h0, rfl⟩
  · exact absurd rfl (htok NUL (hb ▸ h0)).1

end RequestLine

section Prefix

variable {q : Request} {s rest : List UInt8} {b : Option ℕ} {k : ℕ}

lemma Request.length_line (q : Request) :
    q.line.length = q.method.length + q.path.length + q.version.length + 4 := by
  simp [Request.line]
  omega

/-- Where the bytes received end: in the method, in the rest of the request line, or behind it. -/
lemma prefix_cases (hs : s <+: q.wire ++ rest) :
    s <+: q.method ∨ (∃ y, s = q.method ++ SP :: y ∧ s.length < q.line.length ∧
        y <+: q.path ++ SP :: (q.version ++ CR :: [LF])) ∨
      ∃ x, s = q.line ++ x ∧ x <+: q.headers.flatMap HeaderLine.line ++ CR :: (LF :: q.body ++ rest) := by
  have hwire : q.wire ++ rest = q.line ++ (q.headers.flatMap HeaderLine.line ++ CR :: (LF :: q.body ++ rest)) := by
    rw [q.wire_eq]
    simp
  rw [hwire] at hs
  by_cases hle : q.line.length ≤ s.length
  · obtain ⟨x, rfl⟩ := List.prefix_of_prefix_length_le (List.prefix_append q.line _) hs hle
    exact Or.inr (Or.inr ⟨x, rfl, (List.prefix_append_right_inj _).1 hs⟩)
  · have hpre := List.prefix_of_prefix_length_le hs (List.prefix_append q.line _) (by omega)
    rcases prefix_append_cons hpre with h | ⟨y, rfl, hy⟩
    · exact Or.inl h
    · exact Or.inr (Or.inl ⟨y, rfl, by omega, hy⟩)

/-- The buffer ends inside the request line, behind the method. -/
lemma yields_cutLine (q : Request) {m : Mem} {req : HttpRequest} {pre y : List UInt8}
    (hy : y <+: q.path ++ SP :: (q.version ++ CR :: [LF])) (hlt : y.length < q.path.length + q.version.length + 3)
    (hb : m.buf = pre ++ (y ++ [NUL])) : yields (parseAfterMethod req (.off pre.length) m) = none := by
  have hpath : Clear (some SP) q.path := clear_of_notMem q.path_noNul q.path_noSpace
  have hversion : Clear (some CR) q.version := clear_of_notMem q.version_noNul q.version_line
  rcases prefix_append_cons hy with hy | ⟨z, rfl, hz⟩
  · rw [parseAfterMethod_noSpace req hb rfl (hpath.of_prefix hy)]
    rfl
  rcases prefix_append_cons hz with hz | ⟨w, rfl, hw⟩
  · rw [parseAfterMethod_noReturn req (show m.buf = pre ++ (q.path ++ SP :: (z ++ NUL :: [])) by simp [hb]) rfl hpath
      (hversion.of_prefix hz)]
    rfl
  · -- the `\r` is the last byte: the header loop starts outside the buffer
    obtain rfl : w = [] := by
      rcases List.prefix_cons_iff.1 hw with rfl | ⟨w', rfl, hw'⟩
      · rfl
      · obtain rfl := List.prefix_nil.1 hw'
        simp at hlt
        omega
    have hb1 : m.buf = pre ++ (q.path ++ SP :: (q.version ++ CR :: [NUL])) := by simp [hb]
    rw [parseAfterMethod_line req hb1 rfl hpath hversion, show maxHeaders = 127 + 1 from rfl]
    rw [parseHeaders_over]
    · rfl
    · simp
      omega

/-- **A parse of the beginning of a stream whose first request has a known method** ends with the fields `f` exactly if
the bytes show them. -/
theorem outcome_eq_some_iff (hs : s <+: q.wire ++ rest) (hk : Known q.method) {f : Fields} :
    outcome (parseRequest { buffer := b, bufferLen := k } (.ofReceived s)) = some (some f) ↔ q.Shows s.length f := by
  rcases prefix_cases hs with h | ⟨y, rfl, hlt, hy⟩ | ⟨x, rfl, hx⟩
  · have hlt : ¬ q.line.length ≤ s.length := by
      have := h.length_le
      rw [q.length_line]
      omega
    have hclear : Clear (some SP) s := hk.clear.of_prefix h
    refine iff_of_false ?_ fun h' => hlt h'.1
    by_cases hks : Known s
    · rw [outcome_bare (m := .ofReceived s) (t := []) rfl hks]
      simp
    · have htoken : token (some SP) (Mem.ofReceived s).buf = s := token_append hclear (stops_nul _ [])
      obtain ⟨m', hm', -⟩ := parse_unknown (m := .ofReceived s) (b := b) (k := k) (by simp [Mem.ofReceived])
        (by rw [htoken]; exact hks)
      rw [hm']
      simp [outcome]
  · refine iff_of_false ?_ fun h' => absurd h'.1 (by omega)
    obtain ⟨m1, hm1, hout⟩ := outcome_known (m := .ofReceived (q.method ++ SP :: y)) (t := y ++ [NUL]) (b := b) (k := k)
      (by simp [Mem.ofReceived]) hk
    have hcut : yields (parseAfterMethod { method := findMethod q.method .unknown, buffer := b, bufferLen := k }
        (.off (q.method ++ [NUL]).length) m1) = none := by
      refine yields_cutLine q hy ?_ (by simp [hm1])
      rw [q.length_line] at hlt
      simp at hlt
      omega
    rw [List.length_append, List.length_singleton] at hcut
    rw [hout, hcut]
    simp
  · have hpath : Clear (some SP) q.path := clear_of_notMem q.path_noNul q.path_noSpace
    have hversion : Clear (some CR) q.version := clear_of_notMem q.version_noNul q.version_line
    obtain ⟨l, pre, log, -, hset, hfields, hrun, -⟩ := request_run x hk hpath hversion b k
    have hline : q.line ++ x = q.method ++ SP :: (q.path ++ SP :: (q.version ++ CR :: LF :: x)) := by simp [Request.line]
    have hloop := yields_parseHeaders (n := 127) (g := f) q.headers_plain hset hx
      (m := { buf := pre ++ (x ++ [NUL]), log := log }) rfl rfl
    rw [hfields] at hloop
    rw [hline, hrun, bind_pure_apply, outcome_map, ← hline]
    have hlen : (q.line ++ x).length - q.line.length = x.length := by simp
    unfold Request.Shows
    rw [hlen, and_iff_right (by simp)]
    refine Iff.trans ?_ hloop
    rw [show maxHeaders = 127 + 1 from rfl]
    cases yields _ with
    | none => simp
    | some g => simp

end Prefix

/-- The whole request shows its fields. -/
lemma Request.shows_of_le (q : Request) {k : ℕ} (hk : q.wire.length ≤ k) :
    q.Shows k (q.base.store (q.headers.take maxHeaders)) := by
  have hlen : q.wire.length = q.line.length + (lineBytes q.headers + (q.body.length + 2)) := by
    rw [q.wire_eq]
    simp [lineBytes]
  have hshow : Shown (127 + 1) q.headers (k - q.line.length) q.base (q.base.store (q.headers.take (127 + 1))) :=
    shown_all (by omega)
  exact ⟨by omega, hshow⟩

/-- **A request that stands alone in its buffer** is parsed to its fields. -/
theorem Request.outcome_wire (q : Request) (b : Option ℕ) (k : ℕ) :
    outcome (parseRequest { buffer := b, bufferLen := k } (.ofReceived q.wire)) = some q.fields := by
  unfold Request.fields
  by_cases hk : Known q.method
  · rw [if_pos hk]
    exact (outcome_eq_some_iff (show q.wire <+: q.wire ++ [] by simp) hk).2 (q.shows_of_le le_rfl)
  · have htoken : token (some SP) (Mem.ofReceived q.wire).buf = q.method := by
      have hclear : Clear (some SP) q.method := clear_of_notMem q.method_noNul q.method_noSpace
      rw [Mem.ofReceived, q.wire_eq, Request.line, List.append_assoc, List.append_assoc]
      exact token_append hclear (stops_delim SP _)
    obtain ⟨m', hm', -⟩ := parse_unknown (m := .ofReceived q.wire) (b := b) (k := k) (by simp [Mem.ofReceived])
      (by rw [htoken]; exact hk)
    rw [hm', if_neg hk]
    rfl

end Wrensong.Http
