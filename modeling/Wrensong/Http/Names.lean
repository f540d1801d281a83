import Wrensong.Http.Partial

/-!
# Which header names the handler takes for one another

The handler compares the name of a header with four literals: with three of them over the length of the literal, so that
every longer name passes for it, and with `Command` beyond its end. Nothing folds case. `target` is what the tests make
of a name.

An `Edit` of a request is one that must not matter where names are compared as a whole and without regard to case: a header
is inserted, removed or given another value that is none of the four, or the name of some header is written in another
case. `unaffected_iff` says which edits do not matter to the handler. For the fields that keep the last value,
`lastFor` decides, and for the closing flag `Closing` does. A header that is inserted into a request with 128 of them takes
the round of the last one (`Trade`).
-/

namespace Wrensong.Http

open Wrensong.Lib.Bytes

/-! ### Requests with headers -/

/-- A header `name: value`. -/
structure Header where
  name : List UInt8
  value : List UInt8
  name_ok : ∀ b ∈ name, b ≠ COLON ∧ b ≠ CR ∧ b ≠ NUL
  value_ok : ∀ b ∈ value, b ≠ CR ∧ b ≠ NUL

/-- The line of the header: a space stands between the colon and the value. -/
def Header.line (h : Header) : HeaderLine where
  name := h.name
  text := SP :: h.value
  name_noColon := fun hb => (h.name_ok _ hb).1 rfl
  name_line := fun hb => (h.name_ok _ hb).2.1 rfl
  text_line := by
    rw [List.mem_cons, not_or]
    exact ⟨by decide, fun hb => (h.value_ok _ hb).1 rfl⟩

lemma Header.plain (h : Header) : h.line.Plain := by
  refine ⟨fun hb => (h.name_ok _ hb).2.2 rfl, ?_, by simp [line]⟩
  simp only [line, List.mem_cons, not_or]
  exact ⟨by decide, fun hb => (h.value_ok _ hb).2 rfl⟩

/-- A request but for its headers. -/
structure Frame where
  method : List UInt8
  path : List UInt8
  version : List UInt8
  body : List UInt8
  method_ok : ∀ b ∈ method, b ≠ SP ∧ b ≠ NUL
  path_ok : ∀ b ∈ path, b ≠ SP ∧ b ≠ NUL
  version_ok : ∀ b ∈ version, b ≠ CR ∧ b ≠ NUL

/-- The request with these headers. -/
def Frame.request (f : Frame) (hs : List Header) : Request where
  method := f.method
  path := f.path
  version := f.version
  headers := hs.map Header.line
  body := f.body
  method_noSpace := fun hb => (f.method_ok _ hb).1 rfl
  path_noSpace := fun hb => (f.path_ok _ hb).1 rfl
  version_line := fun hb => (f.version_ok _ hb).1 rfl
  method_noNul := fun hb => (f.method_ok _ hb).2 rfl
  path_noNul := fun hb => (f.path_ok _ hb).2 rfl
  version_noNul := fun hb => (f.version_ok _ hb).2 rfl
  headers_plain := fun h hh => by
    obtain ⟨x, -, rfl⟩ := List.mem_map.1 hh
    exact x.plain

/-- What the handler makes of the request with these headers. -/
def Frame.handled (f : Frame) (hs : List Header) (b : Option ℕ) (k : ℕ) : Option (Option Fields) :=
  outcome (parseRequest { buffer := b, bufferLen := k } (.ofReceived (f.request hs).wire))

/-! ### Edits -/

/-- An ASCII letter in lower case. -/
def lower (b : UInt8) : UInt8 := if 65 ≤ b ∧ b ≤ 90 then b + 32 else b

/-- The names are equal but for the case of letters. -/
def SameName (n m : List UInt8) : Prop := n.map lower = m.map lower

instance (n m : List UInt8) : Decidable (SameName n m) := inferInstanceAs (Decidable (n.map lower = m.map lower))

/-- One of the four names, in some case. -/
def Named (n : List UInt8) : Prop :=
  SameName n (bytes "Content-Length") ∨ SameName n (bytes "Host") ∨ SameName n (bytes "Command") ∨
    SameName n (bytes "Connection")

instance : DecidablePred Named := fun n => inferInstanceAs (Decidable (SameName n _ ∨ _ ∨ _ ∨ _))

/-- A change of one header that is not to matter. -/
inductive Edit
  | insert (h : Header) (other : ¬ Named h.name)
  | remove (h : Header) (other : ¬ Named h.name)
  | change (h h' : Header) (name : h.name = h'.name) (other : ¬ Named h.name)
  | recase (h h' : Header) (name : SameName h.name h'.name) (value : h.value = h'.value)

/-- What stands in the place of the edit before it, and behind it. -/
def Edit.old : Edit → List Header
  | insert _ _ => []
  | remove h _ | change h _ _ _ | recase h _ _ _ => [h]

@[inherit_doc Edit.old]
def Edit.new : Edit → List Header
  | insert h _ => [h]
  | remove _ _ => []
  | change _ h' _ _ | recase _ h' _ _ => [h']

/-- The handler makes the same of the request before and behind the edit. -/
def Edit.Unaffected (e : Edit) (f : Frame) (before after : List Header) : Prop :=
  ∀ b k, f.handled (before ++ e.old ++ after) b k = f.handled (before ++ e.new ++ after) b k

/-! ### What the tests make of a name -/

/-- The fields that a header can set. -/
inductive Target
  | contentLength
  | host
  | command
  | connection
  deriving DecidableEq

/-- The field that the handler takes a header of this name for. -/
def target (n : List UInt8) : Option Target :=
  if strncmpEq n (bytes "Content-Length") 14 then some .contentLength
  else if strncmpEq n (bytes "Host") 4 then some .host
  else if strncmpEq n (bytes "Command") 12 then some .command
  else if strncmpEq n (bytes "Connection") 10 then some .connection
  else none

/-- The value asks to close. -/
def closes (v : List UInt8) : Bool := strncmpEq v (bytes "close") 5

/-- The value of the last header for a field. -/
def lastFor (T : Target) (hs : List Header) : Option (List UInt8) :=
  (hs.filter fun h => target h.name = some T).getLast?.map Header.value

/-- Some header for the connection asks to close. -/
def Closing (hs : List Header) : Prop := ∃ h ∈ hs, target h.name = some .connection ∧ closes h.value = true

instance : DecidablePred Closing := fun hs =>
  inferInstanceAs (Decidable (∃ h ∈ hs, target h.name = some .connection ∧ closes h.value = true))

/-- Whatever the value of a header for the field is, the others decide. -/
def Overridden (before after : List Header) : Target → Prop
  | .connection => Closing (before ++ after)
  | T => ∃ h ∈ after, target h.name = some T

/-- The value leaves the field as the headers before leave it. -/
def LeavesAsIs (before : List Header) : Target → List UInt8 → Prop
  | .contentLength, v => atoi v = ((lastFor .contentLength before).map atoi).getD 0
  | .connection, v => closes v = false
  | T, v => lastFor T before = some v

/-- The values mean the same for the field. -/
def Target.SameValue : Target → List UInt8 → List UInt8 → Prop
  | .contentLength, v, v' => atoi v = atoi v'
  | .connection, v, v' => closes v = closes v'
  | _, v, v' => v = v'

/-- The header makes no difference. -/
def Idle (before after : List Header) (h : Header) : Prop :=
  ∀ T ∈ target h.name, Overridden before after T ∨ LeavesAsIs before T h.value

/-- The header `h` between `before` and `mid` makes as much difference as the header `x` behind them: none, or both are the
ones that decide their field, and mean the same. -/
def Trade (before mid : List Header) (h x : Header) : Prop :=
  (Idle before mid h ∧ Idle (before ++ mid) [] x) ∨
    (target h.name = target x.name ∧ ∀ T ∈ target h.name, ¬ Overridden before mid T ∧ T.SameValue h.value x.value)

/-- The header makes no difference where it is inserted: there is a round for it and for all others, or it trades with the
last header, for which there is none any more. Behind 128 headers there is no round for it. -/
def Harmless (before after : List Header) (h : Header) : Prop :=
  if before.length + after.length < maxHeaders then Idle before after h
  else ∀ x ∈ after.getLast?, Trade before after.dropLast h x

/-- **The edits that make no difference.** -/
def Edit.Harmless (before after : List Header) : Edit → Prop
  | insert h _ => Http.Harmless before after h
  | remove h _ => Idle before after h
  | change h h' _ _ => ∀ T ∈ target h.name, Overridden before after T ∨ T.SameValue h.value h'.value
  | recase h h' _ _ => target h.name = target h'.name ∨ (Idle before after h ∧ Idle before after h')

/-! ### The fields of a request with headers -/

section Fields

variable {hs hs' : List Header} {h : Header} {T : Target}

/-- A header sets the field that its name is taken for. -/
lemma set_eq (f : Fields) (h : Header) :
    f.set h.name h.value =
      { f with
        contentLength := if target h.name = some .contentLength then atoi h.value else f.contentLength
        host := if target h.name = some .host then some h.value else f.host
        command := if target h.name = some .command then some h.value else f.command
        closing := f.closing || decide (target h.name = some .connection ∧ closes h.value = true) } := by
  unfold Fields.set target closes
  split_ifs <;> simp_all

lemma lastFor_append (T : Target) (hs hs' : List Header) :
    lastFor T (hs ++ hs') = (lastFor T hs').or (lastFor T hs) := by
  unfold lastFor
  rw [List.filter_append, List.getLast?_append]
  cases (hs'.filter fun h => target h.name = some T).getLast? <;> simp

lemma lastFor_singleton (T : Target) (h : Header) :
    lastFor T [h] = if target h.name = some T then some h.value else none := by
  unfold lastFor
  split_ifs with hT <;> simp [hT]

lemma closing_append (hs hs' : List Header) : Closing (hs ++ hs') ↔ Closing hs ∨ Closing hs' := by
  simp [Closing, or_and_right, exists_or]

lemma closing_singleton (h : Header) : Closing [h] ↔ target h.name = some .connection ∧ closes h.value = true := by
  simp [Closing]

/-- The fields that the headers leave. The induction is on the list from its end. -/
lemma foldl_header (hs : List Header) (t : HttpMethodTyp) (p : Option (List UInt8)) :
    hs.foldl (fun (f : Fields) h => f.set h.name h.value) { method := t, path := p } =
      { method := t, path := p, host := lastFor .host hs, command := lastFor .command hs,
        contentLength := ((lastFor .contentLength hs).map atoi).getD 0, closing := decide (Closing hs) } := by
  induction hs using List.reverseRecOn with
  | nil => simp [lastFor, Closing]
  | append_singleton hs h ih =>
    rw [List.foldl_append, List.foldl_cons, List.foldl_nil, ih, set_eq]
    simp only [lastFor_append, lastFor_singleton, closing_append, closing_singleton, Bool.decide_or]
    by_cases hcl : target h.name = some .contentLength <;> by_cases hho : target h.name = some .host <;>
      by_cases hco : target h.name = some .command <;> simp [hcl, hho, hco]

/-- The headers leave the same in the field. -/
def Agree (hs hs' : List Header) : Target → Prop
  | .contentLength => ((lastFor .contentLength hs).map atoi).getD 0 = ((lastFor .contentLength hs').map atoi).getD 0
  | .connection => Closing hs ↔ Closing hs'
  | T => lastFor T hs = lastFor T hs'

lemma handled_eq (f : Frame) (hlen : hs.length ≤ maxHeaders) (b : Option ℕ) (k : ℕ) :
    f.handled hs b k = some (if Known f.method then
      some { method := findMethod f.method .unknown, path := some f.path, host := lastFor .host hs
             command := lastFor .command hs, contentLength := ((lastFor .contentLength hs).map atoi).getD 0
             closing := decide (Closing hs) }
      else none) := by
  have hstore : (f.request hs).base.store ((f.request hs).headers.take maxHeaders) =
      hs.foldl (fun (f : Fields) h => f.set h.name h.value)
        { method := findMethod f.method .unknown, path := some f.path } := by
    rw [List.take_of_length_le (by simpa [Frame.request] using hlen)]
    simp only [Fields.store, Frame.request, List.foldl_map]
    rfl
  rw [Frame.handled, Request.outcome_wire, Request.fields, hstore, foldl_header]
  rfl

/-- The handler does not see the headers that it has no round for. -/
lemma handled_take (f : Frame) (hs : List Header) (b : Option ℕ) (k : ℕ) :
    f.handled hs b k = f.handled (hs.take maxHeaders) b k := by
  have htake : (f.request hs).headers.take maxHeaders = (f.request (hs.take maxHeaders)).headers.take maxHeaders := by
    simp [Frame.request, List.map_take]
  simp only [Frame.handled, Request.outcome_wire, Request.fields, htake]
  rfl

/-- The handler makes the same of two requests when the headers that it has rounds for leave the same in all fields. -/
lemma handled_eq_iff (f : Frame) (hs hs' : List Header) : (∀ b k, f.handled hs b k = f.handled hs' b k) ↔
    (Known f.method → ∀ T, Agree (hs.take maxHeaders) (hs'.take maxHeaders) T) := by
  have hlen : ∀ l : List Header, (l.take maxHeaders).length ≤ maxHeaders := fun l => by simp
  simp only [handled_take f hs, handled_take f hs', handled_eq f (hlen hs), handled_eq f (hlen hs')]
  by_cases hk : Known f.method
  · simp only [hk, if_true, Option.some.injEq, Fields.mk.injEq, true_and, forall_const, decide_eq_decide]
    constructor
    · rintro ⟨h1, h2, h3, h4⟩ (_ | _ | _ | _)
      · exact h3
      · exact h1
      · exact h2
      · exact h4
    · intro h
      exact ⟨h .host, h .command, h .contentLength, h .connection⟩
  · simp [hk]

end Fields

/-! ### One header more or less -/

section Agree

variable {before after hs hs' hs'' : List Header} {h h' : Header} {T : Target}

lemma Agree.symm (ha : Agree hs hs' T) : Agree hs' hs T := by
  cases T with
  | connection => exact Iff.symm ha
  | _ => exact Eq.symm ha

lemma Agree.trans (ha : Agree hs hs' T) (hb : Agree hs' hs'' T) : Agree hs hs'' T := by
  cases T with
  | connection => exact Iff.trans ha hb
  | _ => exact Eq.trans ha hb

lemma lastFor_eq_none : lastFor T hs = none ↔ ¬ ∃ h ∈ hs, target h.name = some T := by
  simp [lastFor]

lemma Agree.of_lastFor (hT : T ≠ .connection) (hl : lastFor T hs = lastFor T hs') : Agree hs hs' T := by
  cases T with
  | contentLength => exact congrArg (fun v => (v.map atoi).getD 0) hl
  | connection => exact absurd rfl hT
  | _ => exact hl

/-- A header for another field. -/
lemma agree_other (hT : target h.name ≠ some T) : Agree (before ++ [] ++ after) (before ++ [h] ++ after) T := by
  by_cases hc : T = .connection
  · subst hc
    have hnot : ¬ Closing [h] := fun hcl => hT ((closing_singleton h).1 hcl).1
    unfold Agree
    rw [closing_append, closing_append, closing_append, closing_append]
    have hnil : ¬ Closing [] := by simp [Closing]
    tauto
  · refine .of_lastFor hc ?_
    simp only [lastFor_append, lastFor_singleton, if_neg hT]
    rfl

/-- A field that keeps the last value: a later header for it decides. -/
lemma agree_between (hT : T ≠ .connection) (old new : List Header) :
    Agree (before ++ old ++ after) (before ++ new ++ after) T ↔
      Overridden before after T ∨ Agree (before ++ old) (before ++ new) T := by
  have hover : Overridden before after T ↔ ∃ h ∈ after, target h.name = some T := by
    cases T with
    | connection => exact absurd rfl hT
    | _ => rfl
  by_cases hlater : ∃ h ∈ after, target h.name = some T
  · refine iff_of_true (.of_lastFor hT ?_) (Or.inl (hover.2 hlater))
    obtain ⟨v, hv⟩ := Option.ne_none_iff_exists'.1 (mt lastFor_eq_none.1 (not_not.2 hlater))
    rw [lastFor_append, lastFor_append T (before ++ new), hv, Option.some_or, Option.some_or]
  · have hlast : ∀ hs, lastFor T (hs ++ after) = lastFor T hs := fun hs => by
      rw [lastFor_append, lastFor_eq_none.2 hlater, Option.none_or]
    rw [or_iff_right (mt hover.1 hlater)]
    exact ⟨fun ha => ((Agree.of_lastFor hT (hlast _)).symm.trans ha).trans (.of_lastFor hT (hlast _)),
      fun ha => ((Agree.of_lastFor hT (hlast _)).trans ha).trans (Agree.of_lastFor hT (hlast _)).symm⟩

/-- A header for the field. -/
lemma agree_insert (hT : target h.name = some T) :
    Agree (before ++ [] ++ after) (before ++ [h] ++ after) T ↔
      Overridden before after T ∨ LeavesAsIs before T h.value := by
  have hlast : lastFor T (before ++ [h]) = some h.value := by
    rw [lastFor_append, lastFor_singleton, if_pos hT, Option.some_or]
  by_cases hc : T = .connection
  · subst hc
    simp only [Agree, Overridden, LeavesAsIs, closing_append, closing_singleton, hT, List.append_nil, true_and]
    cases closes h.value <;> simp
  · rw [agree_between hc, List.append_nil]
    refine or_congr_right ?_
    cases T with
    | connection => exact absurd rfl hc
    | contentLength =>
      simp only [Agree, LeavesAsIs, hlast]
      exact eq_comm
    | _ => simp only [Agree, LeavesAsIs, hlast]

/-- Two headers for the same field. -/
lemma agree_change (hT : target h.name = some T) (hT' : target h'.name = some T) :
    Agree (before ++ [h] ++ after) (before ++ [h'] ++ after) T ↔
      Overridden before after T ∨ T.SameValue h.value h'.value := by
  have hlast : ∀ {x : Header}, target x.name = some T → lastFor T (before ++ [x]) = some x.value := by
    intro x hx
    rw [lastFor_append, lastFor_singleton, if_pos hx, Option.some_or]
  by_cases hc : T = .connection
  · subst hc
    simp only [Agree, Overridden, Target.SameValue, closing_append, closing_singleton, hT, hT', true_and]
    cases closes h.value <;> cases closes h'.value <;> simp
  · rw [agree_between hc]
    refine or_congr_right ?_
    cases T with
    | connection => exact absurd rfl hc
    | contentLength => simp [Agree, Target.SameValue, hlast hT, hlast hT']
    | _ => simp [Agree, Target.SameValue, hlast hT, hlast hT']

/-- Two headers for a field that no other header decides, in two places. -/
lemma agree_alone {mid : List Header} {x : Header} (hno : ¬ Overridden before mid T) (hT : target h.name = some T)
    (hx : target x.name = some T) :
    Agree (before ++ mid ++ [x]) (before ++ [h] ++ mid) T ↔ T.SameValue h.value x.value := by
  have hlastx : lastFor T (before ++ mid ++ [x]) = some x.value := by
    rw [lastFor_append, lastFor_singleton, if_pos hx, Option.some_or]
  by_cases hc : T = .connection
  · subst hc
    have hclosing : ¬ Closing before ∧ ¬ Closing mid := by rwa [Overridden, closing_append, not_or] at hno
    simp only [Agree, Target.SameValue, closing_append, closing_singleton, hT, hx, hclosing, false_or, or_false, true_and]
    cases closes h.value <;> cases closes x.value <;> simp
  · have hmid : lastFor T mid = none := by
      rw [lastFor_eq_none]
      cases T with
      | connection => exact absurd rfl hc
      | _ => exact hno
    have hlasth : lastFor T (before ++ [h] ++ mid) = some h.value := by
      rw [lastFor_append, hmid, Option.none_or, lastFor_append, lastFor_singleton, if_pos hT, Option.some_or]
    cases T with
    | connection => exact absurd rfl hc
    | contentLength =>
      simp only [Agree, Target.SameValue, hlastx, hlasth, Option.map_some, Option.getD_some]
      exact eq_comm
    | _ =>
      simp only [Agree, Target.SameValue, hlastx, hlasth, Option.some.injEq]
      exact eq_comm

/-- A header makes no difference when all fields agree with it and without. -/
lemma idle_iff : Idle before after h ↔ ∀ T, Agree (before ++ [] ++ after) (before ++ [h] ++ after) T := by
  constructor
  · intro hi T
    by_cases hT : target h.name = some T
    · exact (agree_insert hT).2 (hi T hT)
    · exact agree_other hT
  · exact fun ha T hT => (agree_insert hT).1 (ha T)

/-- Two headers that are taken for different fields. -/
lemma agree_recase (hne : target h.name ≠ target h'.name) :
    (∀ T, Agree (before ++ [h] ++ after) (before ++ [h'] ++ after) T) ↔ Idle before after h ∧ Idle before after h' := by
  rw [idle_iff, idle_iff]
  constructor
  · intro ha
    have hother : ∀ T, target h.name ≠ some T ∨ target h'.name ≠ some T := by
      intro T
      by_contra hno
      rw [not_or, not_not, not_not] at hno
      exact hne (hno.1.trans hno.2.symm)
    constructor
    · intro T
      rcases hother T with hT | hT
      · exact agree_other hT
      · exact (agree_other hT).trans (ha T).symm
    · intro T
      rcases hother T with hT | hT
      · exact (agree_other hT).trans (ha T)
      · exact agree_other hT
  · rintro ⟨h1, h2⟩ T
    exact (h1 T).symm.trans (h2 T)

/-- A header in front of others for one behind them. -/
lemma agree_trade {mid : List Header} {x : Header} :
    (∀ T, Agree (before ++ mid ++ [x]) (before ++ [h] ++ mid) T) ↔ Trade before mid h x := by
  have hlast : (∀ T, Agree (before ++ mid ++ [] ++ []) (before ++ mid ++ [x] ++ []) T) ↔ Idle (before ++ mid) [] x :=
    idle_iff.symm
  have hinsert : (∀ T, Agree (before ++ [] ++ mid) (before ++ [h] ++ mid) T) ↔ Idle before mid h := idle_iff.symm
  simp only [List.append_nil] at hlast hinsert
  constructor
  · intro ha
    by_cases hsame : target h.name = target x.name ∧ ∀ T ∈ target h.name, ¬ Overridden before mid T
    · refine Or.inr ⟨hsame.1, fun T hT => ⟨hsame.2 T hT, ?_⟩⟩
      exact (agree_alone (hsame.2 T hT) hT (hsame.1 ▸ hT)).1 (ha T)
    · -- one of the two is not for the field, or it is overridden
      have hone : ∀ T, Agree (before ++ mid) (before ++ mid ++ [x]) T ∨ Agree (before ++ mid) (before ++ [h] ++ mid) T := by
        intro T
        by_cases hx : target x.name = some T
        · right
          by_cases hT : target h.name = some T
          · have hover : Overridden before mid T := by
              by_contra hno
              refine hsame ⟨hT.trans hx.symm, fun T' hT' => ?_⟩
              obtain rfl := Option.some.inj (hT.symm.trans hT')
              exact hno
            have hagree : Agree (before ++ [] ++ mid) (before ++ [h] ++ mid) T := (agree_insert hT).2 (Or.inl hover)
            rwa [List.append_nil] at hagree
          · have hagree : Agree (before ++ [] ++ mid) (before ++ [h] ++ mid) T := agree_other hT
            rwa [List.append_nil] at hagree
        · left
          have hagree : Agree (before ++ mid ++ [] ++ []) (before ++ mid ++ [x] ++ []) T := agree_other hx
          rwa [List.append_nil, List.append_nil, List.append_nil] at hagree
      refine Or.inl ⟨hinsert.1 fun T => ?_, hlast.1 fun T => ?_⟩
      · exact (hone T).elim (fun h1 => h1.trans (ha T)) id
      · exact (hone T).elim id fun h1 => h1.trans (ha T).symm
  · rintro (⟨h1, h2⟩ | ⟨hsame, hvalue⟩) T
    · exact (hlast.2 h2 T).symm.trans (hinsert.2 h1 T)
    · by_cases hT : target h.name = some T
      · exact (agree_alone (hvalue T hT).1 hT (hsame ▸ hT)).2 (hvalue T hT).2
      · have hx : Agree (before ++ mid ++ [] ++ []) (before ++ mid ++ [x] ++ []) T := agree_other (hsame ▸ hT)
        have hh : Agree (before ++ [] ++ mid) (before ++ [h] ++ mid) T := agree_other hT
        rw [List.append_nil, List.append_nil, List.append_nil] at hx
        rw [List.append_nil] at hh
        exact hx.symm.trans hh

/-- **A header that is inserted** into a request that the handler reads to its end. -/
lemma harmless_iff (hlen : (before ++ after).length ≤ maxHeaders) :
    (∀ T, Agree ((before ++ [] ++ after).take maxHeaders) ((before ++ [h] ++ after).take maxHeaders) T) ↔
      Harmless before after h := by
  rw [List.length_append] at hlen
  unfold Harmless
  split_ifs with hroom
  · rw [idle_iff, List.take_of_length_le (by simp; omega), List.take_of_length_le (by simp; omega)]
  · have hfull : before.length + after.length = maxHeaders := by omega
    rw [List.append_nil, List.take_of_length_le (by simp; omega)]
    rcases List.eq_nil_or_concat' after with rfl | ⟨mid, x, rfl⟩
    · have hcut : (before ++ [h] ++ []).take maxHeaders = before ++ [] := by
        rw [List.append_nil, List.append_nil, List.take_left' (by simpa using hfull)]
      rw [hcut]
      simp only [List.getLast?_nil, Option.mem_def, reduceCtorEq, false_imp_iff, implies_true, iff_true]
      intro T
      cases T <;> rfl
    · rw [List.length_append, List.length_singleton] at hfull
      have hcut : (before ++ [h] ++ (mid ++ [x])).take maxHeaders = before ++ [h] ++ mid := by
        rw [← List.append_assoc, List.take_left' (by simp; omega)]
      rw [hcut, ← List.append_assoc, agree_trade]
      simp

end Agree

/-- **The edits that the handler does not see.** The method is unknown, or the header is one that the tests of the handler
take for no field, that a later one overrides, or that leaves its field as it is; where only the case of a name changes,
the tests may also take both for the same field. -/
theorem unaffected_iff (f : Frame) (before after : List Header) (e : Edit)
    (hlen : (before ++ e.old ++ after).length ≤ maxHeaders) :
    e.Unaffected f before after ↔ (Known f.method → e.Harmless before after) := by
  have hwhole : ∀ {x : Header}, (before ++ [x] ++ after).length ≤ maxHeaders →
      ∀ y : Header, (before ++ [y] ++ after).take maxHeaders = before ++ [y] ++ after ∧
        (before ++ [] ++ after).take maxHeaders = before ++ [] ++ after := by
    intro x hx y
    simp only [List.length_append, List.length_singleton] at hx
    exact ⟨List.take_of_length_le (by simp; omega), List.take_of_length_le (by simp; omega)⟩
  rw [Edit.Unaffected, handled_eq_iff f]
  refine imp_congr_right fun _ => ?_
  cases e with
  | insert h other => exact harmless_iff (by simpa [Edit.old] using hlen)
  | remove h other =>
    simp only [Edit.old, Edit.new, (hwhole hlen h).1, (hwhole hlen h).2]
    exact ⟨fun ha => idle_iff.2 fun T => (ha T).symm, fun hi T => (idle_iff.1 hi T).symm⟩
  | change h h' name other =>
    simp only [Edit.old, Edit.new, (hwhole hlen h).1, (hwhole hlen h').1]
    constructor
    · exact fun ha T hT => (agree_change hT (name ▸ hT)).1 (ha T)
    · intro hh T
      by_cases hT : target h.name = some T
      · exact (agree_change hT (name ▸ hT)).2 (hh T hT)
      · exact (agree_other hT).symm.trans (agree_other (name ▸ hT))
  | recase h h' name value =>
    simp only [Edit.old, Edit.new, (hwhole hlen h).1, (hwhole hlen h').1]
    by_cases hne : target h.name = target h'.name
    · refine iff_of_true (fun T => ?_) (Or.inl hne)
      by_cases hT : target h.name = some T
      · refine (agree_change hT (hne ▸ hT)).2 (Or.inr ?_)
        rw [value]
        cases T <;> rfl
      · exact (agree_other hT).symm.trans (agree_other (hne ▸ hT))
    · exact (agree_recase hne).trans (or_iff_right hne).symm

lemma version_ok : ∀ b ∈ bytes "HTTP/1.1", b ≠ CR ∧ b ≠ NUL := by decide +kernel

lemma value_ok : ∀ b ∈ bytes "x", b ≠ CR ∧ b ≠ NUL := by decide +kernel

/-- The request `GET /`. -/
def getRoot : Frame where
  method := bytes "GET"
  path := bytes "/"
  version := bytes "HTTP/1.1"
  body := []
  method_ok := by decide +kernel
  path_ok := by decide +kernel
  version_ok := version_ok

/-- A header that no test looks for. -/
def accept : Header where
  name := bytes "Accept"
  value := bytes "x"
  name_ok := by decide +kernel
  value_ok := value_ok

/-- A name that starts with `Host`. -/
def hostile : Header where
  name := bytes "Hostile"
  value := bytes "x"
  name_ok := by decide +kernel
  value_ok := value_ok

theorem unaffected_accept : (Edit.insert accept (by decide +kernel)).Unaffected getRoot [] [] :=
  (unaffected_iff getRoot [] [] _ (by decide)).2 fun _ => by
    have hnone : target accept.name = none := by decide +kernel
    rw [Edit.Harmless, Harmless, if_pos (by decide)]
    intro T hT
    rw [hnone] at hT
    cases hT

/-- `Hostile: x` sets the host. -/
theorem not_unaffected : ¬ ∀ (f : Frame) (before after : List Header) (e : Edit),
    (before ++ e.old ++ after).length ≤ maxHeaders → e.Unaffected f before after := by
  intro h
  have hall := h getRoot [] [] (.insert hostile (by decide +kernel)) (by decide)
  have hhost : lastFor .host [] = lastFor .host [hostile] := (handled_eq_iff getRoot [] [hostile]).1 hall (by decide) .host
  exact absurd hhost (by decide +kernel)

end Wrensong.Http
