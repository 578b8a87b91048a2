import CallChain.Nesting.Imbalance

namespace CallChain

namespace Nesting

/-- The state with further brackets open around it. -/
def under (n : Nesting) (bs : List Bracket) : Nesting := { n with opened := n.opened ++ bs }

@[simp] theorem under_place (n : Nesting) (bs : List Bracket) : (n.under bs).place = n.place := rfl

@[simp] theorem under_opened (n : Nesting) (bs : List Bracket) :
    (n.under bs).opened = n.opened ++ bs := rfl

theorem under_empty {n : Nesting} (h : n.place = .code) : ({} : Nesting).under n.opened = n := by
  cases n
  simp_all [under]

theorem head?_under {n : Nesting} {b : Bracket} (h : n.opened.head? = some b) (bs : List Bracket) :
    (n.under bs).opened.head? = some b := by
  rw [under_opened, List.head?_append, h, Option.some_or]

theorem step_under {n : Nesting} {c : Char} (h : n.step c ≠ .mismatch) (bs : List Bracket) :
    (n.under bs).step c = n.step c := by
  rw [step, step, under_place] at *
  cases hp : n.place with
  | code =>
    cases hr : Role.of c with
    | closer b =>
      by_cases hb : n.opened.head? = some b
      · simp only [hb, head?_under hb bs]
      · simp [hp, hr, hb] at h
    | _ => rfl
  | _ => rfl

theorem next_under {n : Nesting} {c : Char} (h : n.step c ≠ .mismatch) (bs : List Bracket) :
    (n.under bs).next c = (n.next c).under bs := by
  rw [step] at h
  rw [next, next, under_place]
  cases hp : n.place with
  | code =>
    cases hr : Role.of c with
    | closer b =>
      by_cases hb : n.opened.head? = some b
      · obtain ⟨bs', hbs⟩ := List.head?_eq_some_iff.1 hb
        simp [under, hbs]
      · simp [hp, hr, hb] at h
    | _ => rfl
  | literal q =>
    dsimp only
    by_cases hc : c = '\\'
    · rw [if_pos hc, if_pos hc]
      rfl
    · rw [if_neg hc, if_neg hc]
      by_cases hq : c = q.mark
      · rw [if_pos hq, if_pos hq]
        rfl
      · rw [if_neg hq, if_neg hq]
  | escape q => rfl

/-- Reading a text leads from one state to another and meets no stray closing bracket. -/
inductive Reads : Nesting → Text → Nesting → Prop
  | nil (n : Nesting) : Reads n [] n
  | cons {n m : Nesting} {c : Char} {t : Text} :
      n.step c ≠ .mismatch → Reads (n.next c) t m → Reads n (c :: t) m

namespace Reads

variable {n m k : Nesting} {c : Char} {s t : Text}

theorem one (h : n.step c ≠ .mismatch) : Reads n [c] (n.next c) := .cons h (.nil _)

theorem trans (hs : Reads n s m) (ht : Reads m t k) : Reads n (s ++ t) k := by
  induction hs with
  | nil => exact ht
  | cons hc _ ih => exact .cons hc (ih ht)

theorem after_eq (h : Reads n t m) : n.after t = m := by
  induction h with
  | nil => rfl
  | cons _ _ ih => rw [after_cons, ih]

theorem split (h : Reads n (s ++ t) m) : Reads n s (n.after s) ∧ Reads (n.after s) t m := by
  induction s generalizing n with
  | nil => exact ⟨.nil n, h⟩
  | cons c s ih =>
    cases h with
    | cons hc h => exact ⟨.cons hc (ih h).1, (ih h).2⟩

theorem under (h : Reads n t m) (bs : List Bracket) : Reads (n.under bs) t (m.under bs) := by
  induction h with
  | nil => exact .nil _
  | cons hc _ ih =>
    refine .cons ?_ ?_
    · rwa [step_under hc]
    · rwa [next_under hc]

end Reads

end Nesting

namespace Role

theorem plain_or (c : Char) :
    Role.of c = .plain ∨ c ∈ ['\'', '"', '(', '[', '{', ')', ']', '}'] := by
  unfold Role.of
  repeat' split
  all_goals simp_all

theorem plain_of_class {p : Char → Bool} {c : Char} (hc : p c)
    (hp : ['\'', '"', '(', '[', '{', ')', ']', '}'].all (!p ·)) : Role.of c = .plain := by
  refine (plain_or c).resolve_right fun h ↦ ?_
  have hno := List.all_eq_true.1 hp c h
  simp [hc] at hno

theorem of_blank {c : Char} (h : CallChain.isBlank c) : Role.of c = .plain :=
  plain_of_class h (by decide)

end Role

namespace Nesting

variable {n : Nesting} {c : Char} {t : Text}

theorem step_plain (hn : n.place = .code) (hc : Role.of c = .plain) : n.step c = .code := by
  simp [step, hn, hc]

theorem next_plain (hn : n.place = .code) (hc : Role.of c = .plain) : n.next c = n := by
  simp [next, hn, hc]

theorem eq_of_next_plain (hc : Role.of c = .plain) (h : n.next c = {}) : n = {} := by
  rcases n with ⟨opened, _ | q | q⟩
  · rwa [next_plain rfl hc] at h
  · have hq : c ≠ q.mark := by
      rintro rfl
      simp at hc
    by_cases hb : c = '\\' <;> simp [next, hb, hq] at h
  · simp [next] at h

theorem imbalance?_eq_none_iff : n.imbalance? = none ↔ n = {} := by
  rcases n with ⟨_ | ⟨b, bs⟩, _ | q | q⟩ <;> simp [imbalance?]

end Nesting

namespace Text

def Plain (t : Text) : Prop := ∀ c ∈ t, Role.of c = .plain

instance (t : Text) : Decidable (Plain t) :=
  decidable_of_iff (t.all fun c ↦ Role.of c = .plain) (by simp [Plain])

theorem Plain.reads {t : Text} (h : Plain t) {n : Nesting} (hn : n.place = .code) :
    n.Reads t n := by
  induction t with
  | nil => exact .nil n
  | cons c t ih =>
    have hc : Role.of c = .plain := h c (by simp)
    refine .cons (by simp [Nesting.step_plain hn hc]) ?_
    rw [Nesting.next_plain hn hc]
    exact ih fun d hd ↦ h d (by simp [hd])

theorem Plain.eq_of_reads {t : Text} (h : Plain t) {n : Nesting} (hr : n.Reads t {}) : n = {} := by
  induction t generalizing n with
  | nil => cases hr; rfl
  | cons c t ih =>
    cases hr with
    | cons hs hr =>
      have hn := ih (fun d hd ↦ h d (by simp [hd])) hr
      exact Nesting.eq_of_next_plain (h c (by simp)) hn

theorem plain_of_isBlank {t : Text} (h : t.isBlank) : Plain t := fun c hc ↦
  Role.of_blank (List.all_eq_true.1 h c hc)

/-- Nothing is wrong with the brackets and quotes of the text. -/
def Balanced (t : Text) : Prop := imbalance? t = none

instance (t : Text) : Decidable (Balanced t) :=
  inferInstanceAs (Decidable (imbalance? t = none))

theorem imbalanceFrom_eq_none_iff {n : Nesting} {offset : Nat} {t : Text} :
    imbalanceFrom n offset t = none ↔ n.Reads t {} := by
  induction t generalizing n offset with
  | nil =>
    rw [imbalanceFrom, Nesting.imbalance?_eq_none_iff]
    constructor
    · rintro rfl
      exact .nil _
    · intro h
      cases h
      rfl
  | cons c t ih =>
    rw [imbalanceFrom]
    by_cases hc : n.step c = .mismatch
    · simp only [hc, if_true, reduceCtorEq, false_iff]
      intro h
      cases h with
      | cons hs _ => exact hs hc
    · rw [if_neg hc, ih]
      constructor
      · exact .cons hc
      · intro h
        cases h with
        | cons _ h => exact h

theorem balanced_iff {t : Text} : Balanced t ↔ ({} : Nesting).Reads t {} :=
  imbalanceFrom_eq_none_iff

namespace Balanced

variable {s t : Text}

/-- A balanced text leaves every state outside string literals as it was. -/
theorem reads (h : Balanced t) {n : Nesting} (hn : n.place = .code) : n.Reads t n := by
  have hr := (balanced_iff.1 h).under n.opened
  rwa [Nesting.under_empty hn] at hr

theorem append (hs : Balanced s) (ht : Balanced t) : Balanced (s ++ t) :=
  balanced_iff.2 ((balanced_iff.1 hs).trans (balanced_iff.1 ht))

theorem enclosed (h : Balanced t) (b : Bracket) : Balanced (b.opening :: t ++ [b.closing]) := by
  have hopen : ({} : Nesting).Reads [b.opening] (.within b) := by
    have hr := Nesting.Reads.one (n := {}) (c := b.opening) (by simp [Nesting.step])
    simpa [Nesting.next, Nesting.within] using hr
  have hclose : (Nesting.within b).Reads [b.closing] {} := by
    have hr := Nesting.Reads.one (n := .within b) (c := b.closing)
      (by simp [Nesting.step, Nesting.within])
    simpa [Nesting.next, Nesting.within] using hr
  exact balanced_iff.2 ((hopen.trans (h.reads rfl)).trans hclose)

theorem flatten {ts : List Text} (h : ∀ t ∈ ts, Balanced t) : Balanced ts.flatten := by
  induction ts with
  | nil => rfl
  | cons t ts ih =>
    rw [List.flatten_cons]
    exact (h t (by simp)).append (ih fun u hu ↦ h u (by simp [hu]))

theorem intercalate {separator : Text} {ts : List Text} (hs : Balanced separator)
    (h : ∀ t ∈ ts, Balanced t) : Balanced (separator.intercalate ts) := by
  induction ts with
  | nil => rfl
  | cons t ts ih =>
    have ht := h t (by simp)
    cases ts with
    | nil => simpa [List.intercalate] using ht
    | cons u us =>
      have hjoin : separator.intercalate (t :: u :: us) =
          t ++ (separator ++ separator.intercalate (u :: us)) := by
        simp [List.intercalate]
      rw [hjoin]
      exact ht.append (hs.append (ih fun x hx ↦ h x (by simp [hx])))

end Balanced

theorem Plain.balanced {t : Text} (h : Plain t) : Balanced t := balanced_iff.2 (h.reads rfl)

theorem balanced_append_iff {s t : Text} (hs : Balanced s) : Balanced (s ++ t) ↔ Balanced t := by
  refine ⟨fun h ↦ ?_, hs.append⟩
  have hr := (balanced_iff.1 h).split.2
  rw [(balanced_iff.1 hs).after_eq] at hr
  exact balanced_iff.2 hr

theorem balanced_append_plain_iff {s t : Text} (ht : Plain t) :
    Balanced (s ++ t) ↔ Balanced s := by
  refine ⟨fun h ↦ ?_, fun h ↦ h.append ht.balanced⟩
  obtain ⟨hs, hr⟩ := (balanced_iff.1 h).split
  rw [ht.eq_of_reads hr] at hs
  exact balanced_iff.2 hs

@[simp] theorem balanced_trim {t : Text} : Balanced (trim t) ↔ Balanced t := by
  have hstart : Plain (t.takeWhile CallChain.isBlank) :=
    plain_of_isBlank List.all_takeWhile
  have hend : Plain ((trimStart t).reverse.takeWhile CallChain.isBlank).reverse :=
    plain_of_isBlank (by rw [isBlank, List.all_reverse]; exact List.all_takeWhile)
  rw [trim, ← balanced_append_plain_iff hend, trimEnd_append,
    ← balanced_append_iff hstart.balanced, trimStart, List.takeWhile_append_dropWhile]

end Text

end CallChain
