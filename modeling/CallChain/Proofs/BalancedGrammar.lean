import CallChain.CallSite
import CallChain.Proofs.Balance

namespace CallChain

/-- What can stand between two quotes: characters, and pairs of a backslash and any character. -/
inductive Quote.Contents (q : Quote) : Text → Prop
  | nil : Contents q []
  | plain {c : Char} {t : Text} : c ≠ q.mark → c ≠ '\\' → Contents q t → Contents q (c :: t)
  | escaped {c : Char} {t : Text} : Contents q t → Contents q ('\\' :: c :: t)

namespace Text

/-- The texts that are put together from plain characters, string literals and bracketed texts. -/
inductive Nested : Text → Prop
  | nil : Nested []
  | plain {c : Char} {t : Text} : Role.of c = .plain → Nested t → Nested (c :: t)
  | literal (q : Quote) {s t : Text} : q.Contents s → Nested t →
      Nested (q.mark :: s ++ q.mark :: t)
  | enclosed (b : Bracket) {s t : Text} : Nested s → Nested t →
      Nested (b.opening :: s ++ b.closing :: t)

end Text

def Role.character? : Role → Option Char
  | .quote q => some q.mark
  | .opener b => some b.opening
  | .closer b => some b.closing
  | .plain => none

theorem Role.eq_of_character? {c d : Char} (h : (Role.of c).character? = some d) : c = d := by
  unfold Role.of at h
  repeat' split at h
  all_goals cases h
  all_goals assumption

theorem Quote.mark_ne_backslash (q : Quote) : q.mark ≠ '\\' := by cases q <;> decide

namespace Nesting

variable {bs : List Bracket} {q : Quote} {c : Char} {s t : Text}

theorem next_quote : (Nesting.mk bs .code).next q.mark = ⟨bs, .literal q⟩ := by simp [next]

theorem next_backslash : (Nesting.mk bs (.literal q)).next '\\' = ⟨bs, .escape q⟩ := by simp [next]

theorem next_quoted (hmark : c ≠ q.mark) (hback : c ≠ '\\') :
    (Nesting.mk bs (.literal q)).next c = ⟨bs, .literal q⟩ := by
  simp [next, hmark, hback]

theorem next_unquote : (Nesting.mk bs (.literal q)).next q.mark = ⟨bs, .code⟩ := by
  simp [next, q.mark_ne_backslash]

theorem reads_contents (h : q.Contents s) :
    (Nesting.mk bs (.literal q)).Reads (s ++ [q.mark]) ⟨bs, .code⟩ := by
  induction h with
  | nil =>
    apply Reads.cons (by simp [step])
    rw [next_unquote]
    exact .nil _
  | plain hmark hback _ ih =>
    apply Reads.cons (by simp [step])
    rwa [next_quoted hmark hback]
  | escaped _ ih =>
    apply Reads.cons (by simp [step])
    rw [next_backslash]
    exact .cons (by simp [step]) ih

theorem reads_literal (h : q.Contents s) :
    (Nesting.mk bs .code).Reads (q.mark :: s ++ [q.mark]) ⟨bs, .code⟩ := by
  apply Reads.cons (by simp [step])
  rw [next_quote]
  exact reads_contents h

end Nesting

theorem Text.Nested.balanced {t : Text} (h : t.Nested) : Balanced t := by
  induction h with
  | nil => rfl
  | @plain c t hc _ ih =>
    have hplain : Plain [c] := by simpa [Plain] using hc
    exact hplain.balanced.append ih
  | @literal q s t hs _ ih =>
    have hliteral : Balanced (q.mark :: s ++ [q.mark]) := balanced_iff.2 (Nesting.reads_literal hs)
    simpa using hliteral.append ih
  | enclosed b _ _ ihs iht => simpa using (ihs.enclosed b).append iht

/-- The text closes the brackets one after the other, innermost first, with text of the grammar
before, between and after them. -/
def Text.Closes : List Bracket → Text → Prop
  | [], t => Nested t
  | b :: bs, t => ∃ s u, t = s ++ b.closing :: u ∧ Nested s ∧ Closes bs u

/-- The text closes everything that is open in the state. -/
def Nesting.Completes (n : Nesting) (t : Text) : Prop :=
  match n.place with
  | .code => Text.Closes n.opened t
  | .literal q => ∃ s u, t = s ++ q.mark :: u ∧ q.Contents s ∧ Text.Closes n.opened u
  | .escape q => ∃ c s u, t = c :: s ++ q.mark :: u ∧ q.Contents s ∧ Text.Closes n.opened u

theorem Text.Closes.ahead {x : Text} (hx : ∀ t, Nested t → Nested (x ++ t)) {bs : List Bracket}
    {t : Text} (h : Closes bs t) : Closes bs (x ++ t) := by
  cases bs with
  | nil => exact hx t h
  | cons b bs =>
    obtain ⟨s, u, rfl, hs, hu⟩ := h
    exact ⟨x ++ s, u, by simp, hx s hs, hu⟩

namespace Nesting

variable {n m : Nesting} {c : Char} {t : Text}

/-- What a step leaves open, and the character itself, is what was open before it. -/
theorem completes_cons (hc : n.step c ≠ .mismatch) (h : (n.next c).Completes t) :
    n.Completes (c :: t) := by
  rcases n with ⟨opened, place⟩
  cases place with
  | code =>
    cases hr : Role.of c with
    | plain =>
      rw [next_plain rfl hr] at h
      exact Text.Closes.ahead (x := [c]) (fun _ ↦ .plain hr) h
    | quote q =>
      obtain rfl : c = q.mark := Role.eq_of_character? (by rw [hr]; rfl)
      rw [next_quote] at h
      obtain ⟨s, u, rfl, hs, hu⟩ := h
      have hblock : ∀ v, Text.Nested v → Text.Nested (q.mark :: s ++ [q.mark] ++ v) := by
        intro v hv
        simpa using Text.Nested.literal q hs hv
      simpa [Completes] using Text.Closes.ahead hblock hu
    | opener b =>
      obtain rfl : c = b.opening := Role.eq_of_character? (by rw [hr]; rfl)
      obtain ⟨s, u, rfl, hs, hu⟩ : ∃ s u, t = s ++ b.closing :: u ∧ Text.Nested s ∧
          Text.Closes opened u := by
        simpa [next, Completes, Text.Closes] using h
      have hblock : ∀ v, Text.Nested v → Text.Nested (b.opening :: s ++ [b.closing] ++ v) := by
        intro v hv
        simpa using Text.Nested.enclosed b hs hv
      simpa [Completes] using Text.Closes.ahead hblock hu
    | closer b =>
      obtain rfl : c = b.closing := Role.eq_of_character? (by rw [hr]; rfl)
      cases opened with
      | nil => simp [step] at hc
      | cons b' bs =>
        obtain rfl : b' = b := by simpa [step] using hc
        exact ⟨[], t, rfl, .nil, by simpa [next, Completes] using h⟩
  | literal q =>
    by_cases hback : c = '\\'
    · subst hback
      rw [next_backslash] at h
      obtain ⟨d, s, u, rfl, hs, hu⟩ := h
      exact ⟨'\\' :: d :: s, u, rfl, .escaped hs, hu⟩
    · by_cases hmark : c = q.mark
      · subst hmark
        rw [next_unquote] at h
        exact ⟨[], t, rfl, .nil, h⟩
      · rw [next_quoted hmark hback] at h
        obtain ⟨s, u, rfl, hs, hu⟩ := h
        exact ⟨c :: s, u, rfl, .plain hmark hback hs, hu⟩
  | escape q =>
    obtain ⟨s, u, rfl, hs, hu⟩ := h
    exact ⟨c, s, u, rfl, hs, hu⟩

theorem Reads.completes (h : n.Reads t {}) : n.Completes t := by
  generalize hm : ({} : Nesting) = m at h
  induction h with
  | nil n =>
    subst hm
    exact Text.Nested.nil
  | cons hc _ ih => exact completes_cons hc (ih hm)

end Nesting

theorem Text.nested_iff {t : Text} : Nested t ↔ Balanced t :=
  ⟨Nested.balanced, fun h ↦ (balanced_iff.1 h).completes⟩

namespace Nesting

def completion (n : Nesting) : Text :=
  let closers := n.opened.map Bracket.closing
  match n.place with
  | .code => closers
  | .literal q => q.mark :: closers
  | .escape q => q.mark :: q.mark :: closers

theorem reads_closers (bs : List Bracket) :
    (Nesting.mk bs .code).Reads (bs.map Bracket.closing) {} := by
  induction bs with
  | nil => exact .nil _
  | cons b bs ih =>
    apply Reads.cons (by simp [step])
    simpa [next] using ih

theorem reads_completion (n : Nesting) : n.Reads n.completion {} := by
  rcases n with ⟨bs, _ | q | q⟩
  · exact reads_closers bs
  · apply Reads.cons (by simp [step])
    rw [next_unquote]
    exact reads_closers bs
  · apply Reads.cons (by simp [step])
    apply Reads.cons (by simp [step, next])
    rw [show (Nesting.mk bs (.escape q)).next q.mark = ⟨bs, .literal q⟩ from rfl, next_unquote]
    exact reads_closers bs

theorem completion_eq_nil_iff {n : Nesting} : n.completion = [] ↔ n.imbalance? = none := by
  rcases n with ⟨_ | ⟨b, bs⟩, _ | q | q⟩ <;> simp [completion, imbalance?]

theorem Reads.nested_completion {t : Text} {n : Nesting} (h : Reads {} t n) :
    Text.Nested (t ++ n.completion) :=
  Text.nested_iff.2 (Text.balanced_iff.2 (h.trans n.reads_completion))

theorem closer_of_mismatch {n : Nesting} {c : Char} (h : n.step c = .mismatch) :
    ∃ b : Bracket, c = b.closing := by
  rw [step] at h
  split at h
  · split at h
    · cases h
    · cases h
    · exact ⟨_, Role.eq_of_character? (by rw [‹Role.of c = _›]; rfl)⟩
    · cases h
  · cases h

end Nesting

namespace Text

variable {n : Nesting} {offset : Nat} {t : Text} {i : Imbalance}

/-- The scanner reports the first bracket that it could not read, or what is open after the whole
text. -/
theorem imbalanceFrom_eq_some (h : imbalanceFrom n offset t = some i) :
    (∃ s c u, t = s ++ c :: u ∧ i = .stray c (offset + bytes s) ∧ n.Reads s (n.after s) ∧
      (n.after s).step c = .mismatch) ∨
    (n.Reads t (n.after t) ∧ (n.after t).imbalance? = some i) := by
  induction t generalizing n offset with
  | nil => exact .inr ⟨.nil n, h⟩
  | cons c t ih =>
    rw [imbalanceFrom] at h
    by_cases hc : n.step c = .mismatch
    · rw [if_pos hc] at h
      cases h
      exact .inl ⟨[], c, t, rfl, rfl, .nil n, hc⟩
    · rw [if_neg hc] at h
      obtain ⟨s, d, u, rfl, rfl, hs, hd⟩ | ⟨hread, hopen⟩ := ih h
      · refine .inl ⟨c :: s, d, u, rfl, ?_, .cons hc hs, hd⟩
        rw [bytes_cons, Nat.add_assoc]
      · exact .inr ⟨.cons hc hread, hopen⟩

theorem not_nested_of_mismatch {s : Text} {c : Char}
    (h : (({} : Nesting).after s).step c = .mismatch) (v : Text) : ¬Nested (s ++ c :: v) := by
  intro hnested
  obtain ⟨-, hread⟩ := (balanced_iff.1 hnested.balanced).split
  cases hread with
  | cons hc _ => exact hc h

/-- The first stray bracket, found by a reading that goes on behind it to the end of the text. -/
def surveyFrom (n : Nesting) (found : Option Imbalance) (offset : Nat) : Text → Option Imbalance
  | [] => found.or n.imbalance?
  | c :: t =>
    let stray := if n.step c = .mismatch then some (.stray c offset) else none
    surveyFrom (n.next c) (found.or stray) (offset + c.utf8Size) t

def survey (t : Text) : Option Imbalance := surveyFrom {} none 0 t

theorem surveyFrom_some (n : Nesting) (i : Imbalance) (offset : Nat) (t : Text) :
    surveyFrom n (some i) offset t = some i := by
  induction t generalizing n offset with
  | nil => rfl
  | cons c t ih => exact ih (n.next c) (offset + c.utf8Size)

theorem surveyFrom_none (n : Nesting) (offset : Nat) (t : Text) :
    surveyFrom n none offset t = imbalanceFrom n offset t := by
  induction t generalizing n offset with
  | nil => rfl
  | cons c t ih =>
    rw [surveyFrom, imbalanceFrom]
    by_cases hc : n.step c = .mismatch
    · simp only [hc, if_true, Option.none_or]
      exact surveyFrom_some _ _ _ t
    · simp only [hc, if_false, Option.none_or]
      exact ih (n.next c) (offset + c.utf8Size)

theorem balancedArguments_ok_iff :
    balancedArguments t = .ok (arguments t) ↔ imbalance? t = none := by
  rw [balancedArguments]
  split <;> simp_all

/-- The start of some text of the grammar. -/
def Viable (t : Text) : Prop := ∃ v, Nested (t ++ v)

theorem stray_of_imbalance {c : Char} (h : imbalance? t = some (.stray c offset)) :
    ∃ s u, t = s ++ c :: u ∧ bytes s = offset ∧ (∃ b : Bracket, c = b.closing) ∧ Viable s ∧
      ¬Viable (s ++ [c]) := by
  obtain ⟨s, d, u, rfl, hi, hs, hd⟩ | ⟨-, hopen⟩ := imbalanceFrom_eq_some h
  · cases hi
    refine ⟨s, u, rfl, by omega, Nesting.closer_of_mismatch hd, ⟨_, hs.nested_completion⟩, ?_⟩
    rintro ⟨v, hv⟩
    rw [List.append_assoc] at hv
    exact not_nested_of_mismatch hd v hv
  · rw [Nesting.imbalance?] at hopen
    split at hopen
    · cases hopen
    · cases hopen
    · simp at hopen

theorem viable_of_imbalance (h : imbalance? t = some i) (hi : ∀ c offset, i ≠ .stray c offset) :
    ∃ v, v ≠ [] ∧ Nested (t ++ v) := by
  obtain ⟨s, c, u, -, hstray, -⟩ | ⟨hread, hopen⟩ := imbalanceFrom_eq_some h
  · exact absurd hstray (hi c _)
  · refine ⟨_, ?_, hread.nested_completion⟩
    rw [ne_eq, Nesting.completion_eq_nil_iff, hopen]
    simp

/-- Nothing is wrong with the texts of the grammar, also for a reading that does not stop at the
first stray bracket, and something is wrong with all others. What is found first is a bracket that
no text of the grammar can have in its place. If there is none, the text is the start of a text of
the grammar. -/
theorem balance_decided (t : Text) :
    ((imbalance? t = none ↔ Nested t) ∧ (survey t = none ↔ Nested t) ∧
      (balancedArguments t = .ok (arguments t) ↔ Nested t)) ∧
    (∀ c offset, imbalance? t = some (.stray c offset) → ∃ s u, t = s ++ c :: u ∧
      bytes s = offset ∧ (∃ b : Bracket, c = b.closing) ∧ Viable s ∧ ¬Viable (s ++ [c])) ∧
    ∀ i, imbalance? t = some i → (∀ c offset, i ≠ .stray c offset) →
      ∃ v, v ≠ [] ∧ Nested (t ++ v) := by
  have hnone : imbalance? t = none ↔ Nested t := nested_iff.symm
  have hsurvey : survey t = none ↔ Nested t := by
    rw [survey, surveyFrom_none]
    exact hnone
  exact ⟨⟨hnone, hsurvey, balancedArguments_ok_iff.trans hnone⟩, fun _ _ ↦ stray_of_imbalance,
    fun _ ↦ viable_of_imbalance⟩

theorem balance_decided_stray :
    imbalance? "(f)(é])".toList = some (.stray ']' 6) ∧
    ∃ s u, "(f)(é])".toList = s ++ ']' :: u ∧ bytes s = 6 ∧ (∃ b : Bracket, ']' = b.closing) ∧
      Viable s ∧ ¬Viable (s ++ [']']) := by
  have h : imbalance? "(f)(é])".toList = some (.stray ']' 6) := by decide
  exact ⟨h, (balance_decided _).2.1 ']' 6 h⟩

end Text

end CallChain
