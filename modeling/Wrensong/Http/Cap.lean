import Wrensong.Http.Names
import Wrensong.Http.Values
import Wrensong.Lib.Decimal

/-!
# Many header lines, and the length of the body

The header loop has 128 rounds, and the blank line takes one of them. `exhausted_iff` says for which numbers of header
lines the loop comes to the blank line: with 128 lines it has examined them all and stands before it, with more it leaves
lines unread, and nothing is refused.

`lengthExact_iff` says which texts of a `Content-Length` header are recorded as the number they denote. The others are
recorded as some number too. A header behind it whose name only begins with `Content-Length` is taken for one, and decides.
-/

namespace Wrensong.Http

open Wrensong.Lib.Bytes

/-! ### The end of the header loop -/

/-- The request but for its body: what stands before the first byte behind the blank line. -/
def Frame.head (f : Frame) (hs : List Header) : List UInt8 := (f.request hs).line ++ (f.request hs).block

/-- The request is refused, or all header lines have been examined and the cursor stands behind the blank line. -/
def Frame.Exhausted (f : Frame) (hs : List Header) : Prop :=
  ∀ b k, ∃ r m, parseRequest { buffer := b, bufferLen := k } (.ofReceived (f.request hs).wire) = (.ok r, m) ∧
    ∀ c l, r = some (c, l) →
      c = .off (f.head hs).length ∧ m.values = hs.map Header.value ∧ (Closing hs → l.closing = true)

/-- An unknown method is refused. -/
lemma refused (q : Request) (hk : ¬ Known q.method) (b : Option ℕ) (k : ℕ) :
    ∃ m, parseRequest { buffer := b, bufferLen := k } (.ofReceived q.wire) = (.ok none, m) := by
  have h := q.outcome_wire b k
  rw [q.fields_eq_none.2 hk] at h
  rcases hr : parseRequest { buffer := b, bufferLen := k } (.ofReceived q.wire) with ⟨_ | _ | _, m⟩
  · rw [hr] at h
    cases h
  · exact ⟨m, rfl⟩
  · rw [hr] at h
    cases h

section Run

variable {hs : List Header}

lemma Frame.length_head (f : Frame) (hs : List Header) :
    (f.head hs).length = (f.request hs).line.length + lineBytes (hs.map Header.line) + 2 := by
  simp only [Frame.head, Message.block, List.length_append]
  rfl

/-- **The rounds on header lines**: after one round for each line that there is a round for, the cursor is behind these
lines. -/
lemma Frame.run (f : Frame) (hs : List Header) (hk : Known f.method) (b : Option ℕ) (k : ℕ) :
    ∃ (l : Locals) (pre : List UInt8) (log : List Access) (n : ℕ), maxHeaders = (hs.take maxHeaders).length + n ∧
      pre.length = (f.request hs).line.length + lineBytes ((hs.take maxHeaders).map Header.line) ∧
      l.closing = decide (Closing (hs.take maxHeaders)) ∧
      parseRequest { buffer := b, bufferLen := k } (.ofReceived (f.request hs).wire) =
        (parseHeaders n (.off pre.length) l >>= fun r => pure (some r))
          { buf := pre ++ (f.request hs).trailer, log := log, values := (hs.take maxHeaders).map Header.value } := by
  set q := f.request hs with hq
  obtain ⟨l, pre, log, hlen, hset, hfields, hrun, -⟩ := request_run (q.block ++ q.body) hk
    (clear_of_notMem q.path_noNul q.path_noSpace) (clear_of_notMem q.version_noNul q.version_line) b k
  have htake : q.headers.take maxHeaders = (hs.take maxHeaders).map Header.line := List.map_take.symm
  obtain ⟨n, hn⟩ := Nat.exists_eq_add_of_le (show (hs.take maxHeaders).length ≤ maxHeaders by simp)
  obtain ⟨l', pre', log', hlen', -, hfields', hrun', -⟩ := headers_run ((hs.take maxHeaders).map Header.line)
    (fun h hh => by
      obtain ⟨x, -, rfl⟩ := List.mem_map.1 hh
      exact x.plain) n hset
    (m := { buf := pre ++ (((hs.take maxHeaders).map Header.line).flatMap HeaderLine.line ++ q.trailer), log := log })
    rfl rfl
  refine ⟨l', pre', log ++ log', n, hn, ?_, ?_, ?_⟩
  · rw [hlen', hlen]
    simp [Request.line, lineBytes, hq, Frame.request]
    omega
  · have hclosing := congrArg Fields.closing hfields'
    rw [hfields, List.foldl_map] at hclosing
    exact hclosing.trans (congrArg Fields.closing (foldl_header (hs.take maxHeaders) _ _))
  · have hblock : pre ++ (q.block ++ q.body ++ [NUL]) =
        pre ++ (((hs.take maxHeaders).map Header.line).flatMap HeaderLine.line ++ q.trailer) := by
      rw [q.block_eq, htake]
    rw [List.length_map, ← hn] at hrun'
    have hstart : parseRequest { buffer := b, bufferLen := k } (.ofReceived q.wire) = _ := hrun
    rw [hstart, hblock, bind_eq hrun']
    simp [Function.comp_def, Header.line]

/-- The loop has a round left for the blank line. -/
lemma Frame.exhausted_of_lt (f : Frame) (hk : Known f.method) (hlt : hs.length < maxHeaders) : f.Exhausted hs := by
  intro b k
  obtain ⟨l, pre, log, n, hn, hlen, hclosing, hrun⟩ := f.run hs hk b k
  have htake : hs.take maxHeaders = hs := List.take_of_length_le hlt.le
  have hdrop : (f.request hs).headers.drop maxHeaders = [] :=
    List.drop_eq_nil_of_le (by simpa [Frame.request] using hlt.le)
  rw [htake] at hn hlen hclosing hrun
  obtain ⟨n, rfl⟩ : ∃ j, n = j + 1 := ⟨n - 1, by omega⟩
  rw [hrun, bind_pure_apply, round_blank n l
    (show _ = pre ++ CR :: (LF :: ((f.request hs).body ++ [NUL])) by simp [Message.trailer, hdrop]) rfl]
  refine ⟨_, _, rfl, ?_⟩
  rintro c l' ⟨⟩
  exact ⟨by rw [f.length_head, hlen], rfl, fun hc => by rw [hclosing, decide_eq_true_eq]; exact hc⟩

/-- Without a round for the blank line, the loop ends before it. -/
lemma Frame.not_exhausted_of_le (f : Frame) (hk : Known f.method) (hle : maxHeaders ≤ hs.length) : ¬ f.Exhausted hs := by
  intro h
  obtain ⟨l, pre, log, n, hn, hlen, -, hrun⟩ := f.run hs hk none 0
  obtain rfl : n = 0 := by
    rw [List.length_take] at hn
    omega
  obtain ⟨r, m, hr, hex⟩ := h none 0
  rw [hrun] at hr
  cases hr
  obtain ⟨hc, hvalues, -⟩ := hex _ _ rfl
  have htake : hs.take maxHeaders = hs := by
    have hmap := congrArg List.length hvalues
    rw [List.length_map, List.length_map, List.length_take] at hmap
    exact List.take_of_length_le (by omega)
  rw [Cursor.off.injEq, f.length_head, hlen, htake] at hc
  omega

end Run

/-- **Exactly when the header loop comes to its end**: there are fewer header lines than rounds. -/
theorem exhausted_iff (f : Frame) (hs : List Header) : f.Exhausted hs ↔ (Known f.method → hs.length < maxHeaders) := by
  constructor
  · intro h hk
    by_contra hle
    exact f.not_exhausted_of_le hk (not_lt.1 hle) h
  · intro h
    by_cases hk : Known f.method
    · exact f.exhausted_of_lt hk (h hk)
    · intro b k
      obtain ⟨m, hm⟩ := refused (f.request hs) hk b k
      exact ⟨none, m, hm, fun c l h => by cases h⟩

/-- A request to close. -/
def closeHeader : Header := ⟨bytes "Connection", bytes "close", by decide +kernel, by decide +kernel⟩

theorem exhausted_one : getRoot.Exhausted [closeHeader] := (exhausted_iff getRoot [closeHeader]).2 fun _ => by decide

/-- With 128 header lines in front, the request to close is not seen. -/
theorem not_exhausted_close : ¬ getRoot.Exhausted (List.replicate 128 accept ++ [closeHeader]) :=
  getRoot.not_exhausted_of_le (by decide +kernel) (by simp [maxHeaders])

/-! ### The length of the body -/

/-- The request is refused, or its `Content-Length` header is a number, and this is the number recorded. -/
def Frame.LengthExact (f : Frame) (before after : List Header) (h : Header) (b : Option ℕ) (k : ℕ) : Prop :=
  ∃ r, f.handled (before ++ [h] ++ after) b k = some r ∧
    ∀ fields, r = some fields → ∃ n, natural h.value = some n ∧ fields.contentLength = n

section Length

variable {before after hs : List Header} {h : Header}

lemma target_contentLength {n : List UInt8} : target n = some .contentLength ↔ bytes "Content-Length" <+: n := by
  rw [← strncmpEq_prefix (n := 14) (by decide)]
  unfold target
  split_ifs with h1 h2 h3 h4 <;> simp_all

/-- The header has a round and the right name, and none behind it that has a round is taken for the length. -/
def Deciding (before after : List Header) (h : Header) : Prop :=
  before.length < maxHeaders ∧ bytes "Content-Length" <+: h.name ∧
    ∀ x ∈ after.take (maxHeaders - (before.length + 1)), ¬ bytes "Content-Length" <+: x.name

instance (before after : List Header) (h : Header) : Decidable (Deciding before after h) :=
  inferInstanceAs (Decidable (_ ∧ _ ∧ _))

/-- The other headers that have a round. -/
def others (before after : List Header) : List Header :=
  before.take maxHeaders ++ after.take (maxHeaders - (before.length + 1))

/-- No header is taken for the length. -/
lemma lastFor_eq_none_iff (hs : List Header) :
    lastFor .contentLength hs = none ↔ ∀ x ∈ hs, ¬ bytes "Content-Length" <+: x.name := by
  simp only [lastFor_eq_none, target_contentLength, not_exists, not_and]

/-- The headers that have a round. -/
lemma take_with (before after : List Header) (h : Header) : (before ++ [h] ++ after).take maxHeaders =
    before.take maxHeaders ++ ((if before.length < maxHeaders then [h] else []) ++
      after.take (maxHeaders - (before.length + 1))) := by
  rw [List.append_assoc, List.take_append, List.singleton_append]
  congr 1
  split_ifs with hlt
  · obtain ⟨j, hj⟩ : ∃ j, maxHeaders - before.length = j + 1 := ⟨maxHeaders - before.length - 1, by omega⟩
    rw [hj, List.take_succ_cons, show maxHeaders - (before.length + 1) = j by omega]
    rfl
  · rw [show maxHeaders - before.length = 0 by omega, show maxHeaders - (before.length + 1) = 0 by omega]
    rfl

/-- The value that is recorded for the length. -/
lemma lastFor_take (before after : List Header) (h : Header) :
    lastFor .contentLength ((before ++ [h] ++ after).take maxHeaders) =
      if Deciding before after h then some h.value else lastFor .contentLength (others before after) := by
  rw [take_with, others, lastFor_append, lastFor_append, lastFor_append]
  by_cases hlater : ∀ x ∈ after.take (maxHeaders - (before.length + 1)), ¬ bytes "Content-Length" <+: x.name
  · rw [(lastFor_eq_none_iff _).2 hlater, Option.none_or, Option.none_or]
    by_cases hlt : before.length < maxHeaders
    · rw [if_pos hlt, lastFor_singleton]
      by_cases hname : bytes "Content-Length" <+: h.name
      · rw [if_pos (target_contentLength.2 hname), if_pos ⟨hlt, hname, hlater⟩, Option.some_or]
      · have hd : ¬ Deciding before after h := fun hd => hname hd.2.1
        rw [if_neg (mt target_contentLength.1 hname), if_neg hd, Option.none_or]
    · have hd : ¬ Deciding before after h := fun hd => hlt hd.1
      rw [if_neg hlt, if_neg hd]
      rfl
  · obtain ⟨v, hv⟩ := Option.ne_none_iff_exists'.1 (mt (lastFor_eq_none_iff _).1 hlater)
    have hd : ¬ Deciding before after h := fun hd => hlater hd.2.2
    rw [if_neg hd, hv]
    rfl

/-- **Exactly when a length is recorded as it is written**: the text is a number, and either its header decides and the number
is an `int`, or the value of the header that does is read as the same number, or it is zero and no header is taken for the
length. -/
theorem lengthExact_iff (f : Frame) (before after : List Header) (h : Header) (b : Option ℕ) (k : ℕ) :
    f.LengthExact before after h b k ↔ (Known f.method → ∃ n : ℕ, natural h.value = some n ∧
      if Deciding before after h then n < 2 ^ 31
      else ((lastFor .contentLength (others before after)).map atoi).getD 0 = n) := by
  unfold Frame.LengthExact
  rw [handled_take, handled_eq f (by simp), lastFor_take]
  simp only [Option.some.injEq, exists_eq_left']
  by_cases hk : Known f.method
  · simp only [hk, if_true, true_implies, Option.some.injEq, forall_eq']
    refine exists_congr fun n => and_congr_right fun hn => ?_
    split_ifs with hd
    · simp only [Option.map_some, Option.getD_some]
      exact atoi_eq_iff hn
    · rfl
  · simp [hk]

end Length

/-- A header for the length. -/
def lengthHeader (v : List UInt8) (hv : ∀ b ∈ v, b ≠ CR ∧ b ≠ NUL) : Header :=
  ⟨bytes "Content-Length", v, by decide +kernel, hv⟩

lemma ten_ok : ∀ b ∈ bytes "10", b ≠ CR ∧ b ≠ NUL := by decide +kernel

theorem lengthExact_ten : getRoot.LengthExact [] [accept] (lengthHeader (bytes "10") ten_ok) none 0 := by
  have hten : natural (bytes "10") = some 10 := by decide +kernel
  refine (lengthExact_iff getRoot [] [accept] (lengthHeader (bytes "10") ten_ok) none 0).2 fun _ => ⟨10, hten, ?_⟩
  rw [if_pos (by decide +kernel)]
  norm_num

lemma large_ok : ∀ b ∈ bytes "4294967306", b ≠ CR ∧ b ≠ NUL := by decide +kernel

/-- The length `4294967306` is recorded as 10. -/
theorem not_lengthExact : ¬ getRoot.LengthExact [] [] (lengthHeader (bytes "4294967306") large_ok) none 0 := by
  unfold Frame.LengthExact
  rw [handled_eq getRoot (by decide)]
  rintro ⟨r, hr, h⟩
  have hlarge : natural (bytes "4294967306") = some 4294967306 := by decide +kernel
  have hlast : lastFor .contentLength [lengthHeader (bytes "4294967306") large_ok] = some (bytes "4294967306") := by
    decide +kernel
  have hatoi : atoi (bytes "4294967306") = 10 := by decide +kernel
  rw [if_pos (by decide +kernel)] at hr
  cases hr
  obtain ⟨n, hn, hrec⟩ := h _ rfl
  simp only [List.nil_append, List.append_nil, hlast, Option.map_some, Option.getD_some, hatoi] at hrec
  have hvalue : natural (bytes "4294967306") = some n := hn
  rw [hlarge, Option.some.injEq] at hvalue
  omega

end Wrensong.Http
