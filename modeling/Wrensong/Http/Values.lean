import Wrensong.Http.Message

/-!
# Where the value of a header comes from

The handler steps over one byte behind the colon, whatever it is, and takes the string there. On a line whose text
starts with a space that is the text without the space. On every other line it is something else: a text that starts
with another byte loses it, an empty text is stepped over into the bytes behind the line, and a text with a `NUL` in it
is cut. `values_eq_iff` says so for whole requests: the values are the texts of the lines exactly when every line the
loop reads is `Spaced`.
-/

namespace Wrensong.Http

open Wrensong.Lib.Bytes

/-- The text behind the colon with at most one leading space removed. -/
def HeaderLine.value (h : HeaderLine) : List UInt8 := if h.text.head? = some SP then h.text.tail else h.text

/-- A line without `NUL` whose text starts with a space. -/
def HeaderLine.Spaced (h : HeaderLine) : Prop := NUL ∉ h.name ∧ NUL ∉ h.text ∧ h.text.head? = some SP

lemma HeaderLine.Spaced.plain {h : HeaderLine} (hs : h.Spaced) : h.Plain := by
  refine ⟨hs.1, hs.2.1, ?_⟩
  intro e
  simpa [e] using hs.2.2

lemma HeaderLine.Spaced.value_eq {h : HeaderLine} (hs : h.Spaced) : h.value = h.text.tail := if_pos hs.2.2

lemma HeaderLine.nul_mem_value {h : HeaderLine} (ht : NUL ∈ h.text) : NUL ∈ h.value := by
  unfold HeaderLine.value
  split_ifs with hsp
  · obtain ⟨t, ht'⟩ := List.head?_eq_some_iff.1 hsp
    rw [ht', List.mem_cons] at ht
    rw [ht', List.tail_cons]
    exact ht.resolve_left (by decide)
  · exact ht

lemma valueOf_clear {r y : List UInt8} (hr : Clear none r) : Clear none (valueOf r y) := by
  unfold valueOf
  split_ifs
  · exact cstr_clear y
  · exact fun b hb => hr b (List.mem_of_mem_tail hb)

/-! ### A line that is not spaced -/

section Round

variable {m : Mem} {pre rest : List UInt8} {i : ℕ} (n : ℕ) (l : Locals) {h : HeaderLine}

/-- A name with a `NUL` in it: the handler sees no colon and takes no value. -/
lemma round_nulName (hn : NUL ∈ h.name) (hb : m.buf = pre ++ (h.line ++ rest)) (hi : i = pre.length) :
    (parseHeaders (n + 1) (.off i) l m).2.values = m.values := by
  obtain ⟨tok, htok, hcut⟩ := scan_cases COLON h.name
  rcases hcut with ⟨t, ht⟩ | ⟨t, ht⟩ | ht
  · exact absurd (by rw [ht]; simp) h.name_noColon
  · have hb1 : m.buf = pre ++ (tok ++ NUL :: (t ++ COLON :: (h.text ++ [CR, LF]) ++ rest)) := by
      rw [hb, HeaderLine.line, ht]
      simp
    have hcr : Clear (some CR) tok := clear_of_notMem (fun e => (htok _ e).1 rfl) fun e => h.name_line (by rw [ht]; simp [e])
    by_cases hne : tok = []
    · subst hne
      rw [round_stop n l hb1 hi]
    · have hread := readHeader_noColon l
        (m := { m with log := m.log ++ [.strsep (.off i), .step .wild, .read (.off i)] }) hb1 hi htok
      rw [round_nul n l hb1 hi hcr hne, bind_error hread]
  · rw [ht] at hn
    exact absurd rfl (htok _ hn).1

/-- **A line that is not spaced** gives no value, or one that is not the text of the line. -/
lemma round_notSpaced (hs : ¬ h.Spaced) (hb : m.buf = pre ++ (h.line ++ rest)) (hr : NUL ∈ rest) (hi : i = pre.length) :
    (parseHeaders (n + 1) (.off i) l m).2.values = m.values ∨
      ∃ v, v ≠ h.value ∧ m.values ++ [v] <+: (parseHeaders (n + 1) (.off i) l m).2.values := by
  by_cases hn : NUL ∈ h.name
  · exact Or.inl (round_nulName n l hn hb hi)
  right
  have hname : Clear (some COLON) h.name := clear_of_notMem hn h.name_noColon
  have hline : ∀ {t}, Clear (some CR) t → Clear (some CR) (h.name ++ COLON :: t) := fun ht =>
    clear_append.2 ⟨clear_of_notMem hn h.name_line, clear_cons.2 ⟨⟨by decide, by decide⟩, ht⟩⟩
  obtain ⟨tok, htok, hcut⟩ := scan_cases CR h.text
  rcases hcut with ⟨t, ht⟩ | ⟨t, ht⟩ | ht
  · exact absurd (by rw [ht]; simp) h.text_line
  · -- the text is cut by a `NUL`
    have hb1 : m.buf = pre ++ ((h.name ++ COLON :: tok) ++ NUL :: (t ++ [CR, LF] ++ rest)) := by
      rw [hb, HeaderLine.line, ht]
      simp
    refine ⟨valueOf tok (t ++ [CR, LF] ++ rest), ?_, ?_⟩
    · intro e
      have hmem : NUL ∈ h.value := HeaderLine.nul_mem_value (by rw [ht]; simp)
      rw [← e] at hmem
      exact (valueOf_clear htok.noNul _ hmem).1 rfl
    · rw [round_nul n l hb1 hi (hline htok) (by simp)]
      obtain ⟨log, hread, -⟩ := readHeader_ok l
        (m := { m with log := m.log ++ [.strsep (.off i), .step .wild, .read (.off i)] })
        (show _ = pre ++ (h.name ++ COLON :: (tok ++ NUL :: (t ++ [CR, LF] ++ rest))) by simp [hb1]) hi hname htok.noNul
        (fun _ => by simp [hr])
      rw [bind_ok hread]
      refine List.IsPrefix.trans ?_ (extends_parseHeaders n .wild _ _).2
      exact List.prefix_rfl
  · -- the text does not start with a space
    have hsp : h.text.head? ≠ some SP := fun e => hs ⟨hn, fun h0 => (htok _ (ht ▸ h0)).1 rfl, e⟩
    have hval : h.value = tok := by rw [HeaderLine.value, if_neg hsp, ht]
    have hb1 : m.buf = pre ++ ((h.name ++ COLON :: tok) ++ CR :: (LF :: rest)) := by
      rw [hb, HeaderLine.line, ht]
      simp
    refine ⟨valueOf tok (LF :: rest), ?_, ?_⟩
    · rw [hval, valueOf]
      split_ifs with he
      · rw [he]
        intro e
        simp [cstr, token, show ¬ LF = NUL by decide] at e
      · intro e
        have hlen := congrArg List.length e
        rw [List.length_tail] at hlen
        have hpos : 0 < tok.length := List.length_pos_iff.2 he
        omega
    · rw [round_cr n l hb1 hi (hline htok) (by simp)]
      obtain ⟨log, hread, -⟩ := readHeader_ok l
        (m := { m with
          buf := pre ++ ((h.name ++ COLON :: tok) ++ NUL :: (LF :: rest)),
          log := m.log ++ [.strsep (.off i), .step (.off (i + (h.name ++ COLON :: tok).length + 2)), .read (.off i)] })
        (show _ = pre ++ (h.name ++ COLON :: (tok ++ NUL :: (LF :: rest))) by simp) hi hname htok.noNul
        (fun _ => by simp [hr])
      rw [bind_ok hread]
      refine List.IsPrefix.trans ?_ (extends_parseHeaders n _ _ _).2
      exact List.prefix_rfl

end Round

/-! ### The loop -/

/-- **The values of a list of lines start with their texts exactly when all lines are spaced.** The induction is on the
lines, one round each; at the first line that is not spaced the values depart from the texts and only grow from there. -/
theorem values_prefix_iff (hs : List HeaderLine) {m : Mem} {pre rest : List UInt8} {i : ℕ} (n : ℕ) (l : Locals)
    (hb : m.buf = pre ++ (hs.flatMap HeaderLine.line ++ rest)) (hr : NUL ∈ rest) (hi : i = pre.length) :
    m.values ++ hs.map HeaderLine.value <+: (parseHeaders (hs.length + n) (.off i) l m).2.values ↔
      ∀ h ∈ hs, h.Spaced := by
  induction hs generalizing m pre i l with
  | nil => simpa using (extends_parseHeaders n (.off i) l m).2
  | cons h hs ih =>
    have hb1 : m.buf = pre ++ (h.line ++ (hs.flatMap HeaderLine.line ++ rest)) := by rw [hb]; simp
    rw [List.length_cons, show hs.length + 1 + n = hs.length + n + 1 by omega, List.map_cons, List.forall_mem_cons]
    by_cases hsp : h.Spaced
    · obtain ⟨log, hround, -⟩ := round_plain (hs.length + n) l hsp.plain hb1 hi
      rw [hround, hsp.value_eq]
      simp only [hsp, true_and]
      rw [← ih (m := ⟨pre ++ h.done ++ (hs.flatMap HeaderLine.line ++ rest), m.log ++ log, m.values ++ [h.text.tail]⟩)
        (l.set h.name h.text.tail (.off (i + h.name.length + 2))) rfl
        (show i + h.line.length = (pre ++ h.done).length by simp [hi, h.length_done])]
      simp
    · refine iff_of_false ?_ (fun hall => hsp hall.1)
      intro hpre
      rcases round_notSpaced (hs.length + n) l hsp hb1 (by simp [hr]) hi with hv | ⟨v, hv, hext⟩
      · rw [hv] at hpre
        have hlen := hpre.length_le
        simp at hlen
      · -- two prefixes of the values, of one length
        have hpre' : m.values ++ [h.value] <+: (parseHeaders (hs.length + n + 1) (.off i) l m).2.values :=
          List.IsPrefix.trans ⟨hs.map HeaderLine.value, by simp⟩ hpre
        have heq := (List.prefix_of_prefix_length_le hext hpre' (by simp)).eq_of_length (by simp)
        exact hv (by simpa using heq)

/-! ### Whole requests -/

lemma Message.values_of_unknown (q : Message) (b : Option ℕ) (k : ℕ) (hm : ¬ Known q.method) :
    (parseRequest { buffer := b, bufferLen := k } (.ofReceived q.wire)).2.values = [] := by
  obtain ⟨tok, htok, hcut⟩ := scan_cases SP q.method
  rcases hcut with ⟨t, ht⟩ | ⟨t, ht⟩ | ht
  · exact absurd (by rw [ht]; simp) q.method_noSpace
  · have hb : (Mem.ofReceived q.wire).buf = [] ++ (tok ++ NUL ::
        (t ++ SP :: (q.path ++ SP :: (q.version ++ CR :: LF :: (q.block ++ q.body))) ++ [NUL])) := by
      simp [Mem.ofReceived, Message.wire, ht]
    rw [parseRequest_token (strsep_nul hb (show 0 = [].length from rfl) htok) hb htok.noNul rfl]
    split_ifs with hk
    · rw [bind_pure_apply, parseAfterMethod_null]
      rfl
    · rfl
  · rw [← ht] at htok
    have hb : (Mem.ofReceived q.wire).buf = [] ++ (q.method ++ SP ::
        (q.path ++ SP :: (q.version ++ CR :: LF :: (q.block ++ q.body)) ++ [NUL])) := by
      simp [Mem.ofReceived, Message.wire]
    rw [parseRequest_token (strsep_found hb (show 0 = [].length from rfl) htok (by decide)) rfl htok.noNul rfl,
      if_neg hm]
    rfl

/-- A `NUL` in the path or the version: the handler takes no value. -/
lemma Message.values_of_nul (q : Message) (b : Option ℕ) (k : ℕ) (hm : Known q.method)
    (h0 : NUL ∈ q.path ∨ NUL ∈ q.version) :
    (parseRequest { buffer := b, bufferLen := k } (.ofReceived q.wire)).2.values = [] := by
  have hb : (Mem.ofReceived q.wire).buf = [] ++ (q.method ++ SP ::
      (q.path ++ SP :: (q.version ++ CR :: LF :: (q.block ++ q.body)) ++ [NUL])) := by
    simp [Mem.ofReceived, Message.wire]
  rw [parseRequest_token (strsep_found hb (show 0 = [].length from rfl) hm.clear (by decide)) rfl hm.clear.noNul rfl,
    if_pos hm, bind_pure_apply]
  set m1 : Mem := Mem.note { buf := [] ++ (q.method ++ NUL ::
      (q.path ++ SP :: (q.version ++ CR :: LF :: (q.block ++ q.body)) ++ [NUL])), log := [.strsep (.off 0)] }
    (.string (.off 0)) with hm1
  obtain ⟨p, hp, ⟨t, ht⟩ | ⟨t, ht⟩ | ht⟩ := scan_cases SP q.path
  · exact absurd (by rw [ht]; simp) q.path_noSpace
  · have h1 := parseAfterMethod_noSpace { method := findMethod q.method .unknown, buffer := b, bufferLen := k }
      (show m1.buf = (q.method ++ [NUL]) ++ (p ++ NUL :: (t ++ SP :: (q.version ++ CR :: LF :: (q.block ++ q.body)) ++
        [NUL])) by simp [hm1, ht])
      (show 0 + q.method.length + 1 = (q.method ++ [NUL]).length by simp) hp
    change (parseAfterMethod _ (.off (0 + q.method.length + 1)) m1).2.values = []
    rw [h1]
    rfl
  · rw [← ht] at hp
    have hv0 : NUL ∈ q.version := h0.resolve_left fun e => (hp _ e).1 rfl
    obtain ⟨v, hv, ⟨t, ht⟩ | ⟨t, ht⟩ | ht⟩ := scan_cases CR q.version
    · exact absurd (by rw [ht]; simp) q.version_line
    · have h1 := parseAfterMethod_noReturn { method := findMethod q.method .unknown, buffer := b, bufferLen := k }
        (show m1.buf = (q.method ++ [NUL]) ++ (q.path ++ SP :: (v ++ NUL :: (t ++ CR :: LF :: (q.block ++ q.body) ++
          [NUL]))) by simp [hm1, ht])
        (show 0 + q.method.length + 1 = (q.method ++ [NUL]).length by simp) hp hv
      change (parseAfterMethod _ (.off (0 + q.method.length + 1)) m1).2.values = []
      rw [h1]
      rfl
    · rw [ht] at hv0
      exact absurd rfl (hv _ hv0).1

/-- What stands behind the header lines that there are rounds for, in the buffer. -/
def Message.trailer (q : Message) : List UInt8 :=
  (q.headers.drop maxHeaders).flatMap HeaderLine.line ++ [CR, LF] ++ q.body ++ [NUL]

lemma Message.block_eq (q : Message) :
    q.block ++ q.body ++ [NUL] = (q.headers.take maxHeaders).flatMap HeaderLine.line ++ q.trailer := by
  have hsplit : q.headers.flatMap HeaderLine.line = (q.headers.take maxHeaders).flatMap HeaderLine.line ++
      (q.headers.drop maxHeaders).flatMap HeaderLine.line := by
    rw [← List.flatMap_append, List.take_append_drop]
  simp [Message.block, Message.trailer, hsplit]

/-- A known method and a request line without `NUL`: the values are those the header loop takes. -/
lemma Message.values_of_line (q : Message) (b : Option ℕ) (k : ℕ) (hm : Known q.method) (hp : NUL ∉ q.path)
    (hv : NUL ∉ q.version) :
    ∃ (l : Locals) (pre : List UInt8) (log : List Access) (n : ℕ), l.Settled pre ∧
      maxHeaders = (q.headers.take maxHeaders).length + n ∧
      (parseRequest { buffer := b, bufferLen := k } (.ofReceived q.wire)).2.values =
        (parseHeaders ((q.headers.take maxHeaders).length + n) (.off pre.length) l
          { buf := pre ++ ((q.headers.take maxHeaders).flatMap HeaderLine.line ++ q.trailer), log := log }).2.values := by
  obtain ⟨l, pre, log, -, hset, -, hrun, -⟩ := request_run (q.block ++ q.body) hm (clear_of_notMem hp q.path_noSpace)
    (clear_of_notMem hv q.version_line) b k
  obtain ⟨n, hn⟩ := Nat.exists_eq_add_of_le (show (q.headers.take maxHeaders).length ≤ maxHeaders by simp)
  refine ⟨l, pre, log, n, hset, hn, ?_⟩
  have hrun' : parseRequest { buffer := b, bufferLen := k } (.ofReceived q.wire) = _ := hrun
  rw [hrun', bind_pure_apply, q.block_eq, ← hn]

/-- **The values of a request.** With a known method, the values the handler takes are the texts of the header lines
behind their colons, without one leading space, exactly when there is no header line or the request line has no `NUL`
and each of the first 128 header lines is spaced. -/
theorem values_eq_iff (q : Message) (b : Option ℕ) :
    (parseRequest { buffer := b, bufferLen := q.wire.length } (.ofReceived q.wire)).2.values =
        (if Known q.method then (q.headers.take maxHeaders).map HeaderLine.value else []) ↔
      (Known q.method → q.headers ≠ [] →
        NUL ∉ q.path ∧ NUL ∉ q.version ∧ ∀ h ∈ q.headers.take maxHeaders, h.Spaced) := by
  by_cases hm : Known q.method
  swap
  · rw [q.values_of_unknown b _ hm]
    simp [hm]
  simp only [hm, if_true, true_implies]
  by_cases h0 : NUL ∈ q.path ∨ NUL ∈ q.version
  · rw [q.values_of_nul b _ hm h0, eq_comm, List.map_eq_nil_iff, List.take_eq_nil_iff]
    have hpos : maxHeaders ≠ 0 := by decide
    simp only [hpos, false_or]
    constructor
    · exact fun he hne => absurd he hne
    · intro h
      by_contra hne
      obtain ⟨hp, hv, -⟩ := h hne
      exact h0.elim hp hv
  obtain ⟨hp, hv⟩ := not_or.1 h0
  obtain ⟨l, pre, log, n, hset, hn, hvalues⟩ := q.values_of_line b q.wire.length hm hp hv
  rw [hvalues]
  set hs := q.headers.take maxHeaders with hhs
  constructor
  · intro h _
    refine ⟨hp, hv, ?_⟩
    have hspaced := values_prefix_iff hs (m := { buf := pre ++ (hs.flatMap HeaderLine.line ++ q.trailer), log := log })
      n l rfl (by simp [Message.trailer]) rfl
    rw [← hspaced, h]
    exact List.prefix_rfl
  · intro h
    have hall : ∀ x ∈ hs, x.Spaced := by
      intro x hx
      exact (h (fun e => by simp [hhs, e] at hx)).2.2 x hx
    obtain ⟨l', pre', log', h1, -, -, h4, -⟩ := headers_run hs (fun x hx => (hall x hx).plain) n hset
      (m := { buf := pre ++ (hs.flatMap HeaderLine.line ++ q.trailer), log := log }) rfl rfl
    have hmap : (hs.map fun h => h.text.tail) = hs.map HeaderLine.value :=
      List.map_congr_left fun x hx => (hall x hx).value_eq.symm
    rw [h4, List.nil_append, hmap]
    -- all rounds are used up, or the next one is on the blank line
    cases n with
    | zero => rfl
    | succ n =>
      have hdrop : q.headers.drop maxHeaders = [] := by
        rw [List.drop_eq_nil_iff]
        rw [hhs, List.length_take] at hn
        omega
      rw [round_blank n l' (show _ = pre' ++ CR :: (LF :: (q.body ++ [NUL])) by simp [Message.trailer, hdrop]) rfl]

/-- A request with a header line that has no text. -/
def emptyHost : Message where
  method := bytes "GET"
  path := bytes "/"
  version := bytes "HTTP/1.1"
  headers := [⟨bytes "Host", [], by decide, by decide, by decide⟩,
    ⟨bytes "Accept", bytes " x", by decide, by decide, by decide⟩]
  body := []
  method_noSpace := by decide
  path_noSpace := by decide
  version_line := by decide

/-- The value of an empty header is the line feed behind it and the next header line. -/
theorem values_of_emptyHost :
    (parseRequest { buffer := some 0, bufferLen := emptyHost.wire.length } (.ofReceived emptyHost.wire)).2.values ≠
      (emptyHost.headers.take maxHeaders).map HeaderLine.value := by decide +kernel

end Wrensong.Http
