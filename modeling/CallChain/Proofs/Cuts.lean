import CallChain.CallSite
import CallChain.Proofs.Balance

namespace CallChain.Text

variable {separator c : Char} {n : Nesting} {s t needle : Text} {k : Cut}

theorem cutFirstFrom_spec (h : cutFirstFrom needle n t = some k) :
    k.before ++ needle ++ k.after = t ∧ n.after k.before = {} := by
  induction t generalizing n k with
  | nil => simp [cutFirstFrom] at h
  | cons c t ih =>
    rw [cutFirstFrom] at h
    split at h
    · rename_i hc
      cases h
      rw [Bool.and_eq_true, Nesting.isTop_iff, List.isPrefixOf_iff_prefix] at hc
      exact ⟨List.prefix_iff_eq_append.1 hc.2, hc.1⟩
    · obtain ⟨k', hk, rfl⟩ := Option.map_eq_some_iff.1 h
      obtain ⟨htext, htop⟩ := ih hk
      exact ⟨congrArg (c :: ·) htext, htop⟩

theorem cutFirst_text (h : cutFirst needle t = some k) : k.before ++ needle ++ k.after = t :=
  (cutFirstFrom_spec h).1

theorem cutLastFrom_text (h : cutLastFrom needle n t = some k) :
    k.before ++ needle ++ k.after = t := by
  induction t generalizing n k with
  | nil => simp [cutLastFrom] at h
  | cons c t ih =>
    rw [cutLastFrom] at h
    split at h
    · rename_i k' hk
      cases h
      exact congrArg (c :: ·) (ih hk)
    · split at h
      · rename_i hc
        cases h
        rw [Bool.and_eq_true, List.isPrefixOf_iff_prefix] at hc
        exact List.prefix_iff_eq_append.1 hc.2
      · simp at h

theorem cutFirst_balanced (h : cutFirst needle t = some k) (hn : Plain needle) (ht : Balanced t) :
    Balanced k.before ∧ Balanced k.after := by
  rw [← cutFirst_text h, List.append_assoc] at ht
  obtain ⟨hb, ha⟩ := (balanced_iff.1 ht).split
  rw [(cutFirstFrom_spec h).2] at hb ha
  exact ⟨balanced_iff.2 hb, (balanced_append_iff hn.balanced).1 (balanced_iff.2 ha)⟩

theorem segmentsFrom_ne_nil (separator : Char) (n : Nesting) (t : Text) :
    segmentsFrom separator n t ≠ [] := by
  cases t with
  | nil => simp [segmentsFrom]
  | cons c t =>
    rw [segmentsFrom]
    split
    · simp
    · split <;> simp

theorem segmentsFrom_cons (h : ¬(n.isTop && c = separator)) :
    segmentsFrom separator n (c :: t) =
      (segmentsFrom separator (n.next c) t).modifyHead (c :: ·) := by
  rw [segmentsFrom, if_neg h]
  split
  · rename_i hs
    exact absurd hs (segmentsFrom_ne_nil _ _ _)
  · rename_i hs
    rw [hs]
    rfl

theorem segmentsFrom_of_not_mem (h : separator ∉ t) (n : Nesting) :
    segmentsFrom separator n t = [t] := by
  induction t generalizing n with
  | nil => rfl
  | cons c t ih =>
    have hc : ¬(n.isTop && c = separator) := by
      rw [Bool.and_eq_true, decide_eq_true_eq]
      exact fun hc ↦ h (by simp [hc.2])
    rw [segmentsFrom_cons hc, ih (List.not_mem_of_not_mem_cons h)]
    rfl

theorem segmentsFrom_intercalate (separator : Char) (n : Nesting) (t : Text) :
    [separator].intercalate (segmentsFrom separator n t) = t := by
  induction t generalizing n with
  | nil => rfl
  | cons c t ih =>
    have htail := ih (n.next c)
    obtain ⟨u, us, hu⟩ := List.exists_cons_of_ne_nil (segmentsFrom_ne_nil separator (n.next c) t)
    by_cases hc : n.isTop && c = separator
    · rw [segmentsFrom, if_pos hc, hu, List.intercalate_cons_cons, ← hu, htail]
      rw [Bool.and_eq_true, decide_eq_true_eq] at hc
      rw [hc.2]
      rfl
    · rw [segmentsFrom_cons hc, hu, List.modifyHead_cons]
      rw [hu] at htail
      cases us with
      | nil => simpa [List.intercalate] using htail
      | cons v vs =>
        rw [List.intercalate_cons_cons] at htail ⊢
        rw [← htail]
        rfl

/-- A text that is one segment is the start of the first segment of what it begins. -/
theorem segmentsFrom_append (h : segmentsFrom separator n s = [s]) (t : Text) :
    segmentsFrom separator n (s ++ t) =
      (segmentsFrom separator (n.after s) t).modifyHead (s ++ ·) := by
  induction s generalizing n with
  | nil =>
    obtain ⟨u, us, hu⟩ := List.exists_cons_of_ne_nil (segmentsFrom_ne_nil separator n t)
    simp [hu]
  | cons c s ih =>
    by_cases hc : n.isTop && c = separator
    · simp [segmentsFrom, hc] at h
    · rw [segmentsFrom_cons hc] at h
      obtain ⟨u, us, hu⟩ := List.exists_cons_of_ne_nil (segmentsFrom_ne_nil separator (n.next c) s)
      rw [hu, List.modifyHead_cons, List.cons.injEq, List.cons.injEq] at h
      obtain ⟨⟨-, rfl⟩, rfl⟩ := h
      obtain ⟨v, vs, hv⟩ := List.exists_cons_of_ne_nil
        (segmentsFrom_ne_nil separator ((n.next c).after u) t)
      rw [List.cons_append, segmentsFrom_cons hc, ih hu, Nesting.after_cons, hv]
      rfl

/-- Inside brackets nothing is a separator. -/
theorem segmentsFrom_under {m : Nesting} (h : n.Reads t m) (b : Bracket) (bs : List Bracket) :
    segmentsFrom separator (n.under (b :: bs)) t = [t] := by
  induction h with
  | nil => rfl
  | @cons n m c t hc h ih =>
    have htop : ¬((n.under (b :: bs)).isTop && c = separator) := by
      simp [Nesting.isTop]
    rw [segmentsFrom_cons htop, Nesting.next_under hc, ih]
    rfl

theorem segments_append_of_after (ha : ({} : Nesting).after s = {})
    (hs : segments separator s = [s]) (hp : Role.of separator = .plain) (t : Text) :
    segments separator (s ++ separator :: t) = s :: segments separator t := by
  rw [segments, segmentsFrom_append hs, ha, segmentsFrom,
    if_pos (by simp [Nesting.isTop, Nesting.inString]), Nesting.next_plain rfl hp]
  simp [segments]

theorem segments_append (ha : Balanced s) (hs : segments separator s = [s])
    (hp : Role.of separator = .plain) (t : Text) :
    segments separator (s ++ separator :: t) = s :: segments separator t :=
  segments_append_of_after (balanced_iff.1 ha).after_eq hs hp t

theorem segmentsFrom_balanced (hp : Role.of separator = .plain) (h : n.Reads t {}) :
    n.Reads ((segmentsFrom separator n t).headD []) {} ∧
      ∀ u ∈ (segmentsFrom separator n t).tail, Balanced u := by
  induction t generalizing n with
  | nil => exact ⟨h, by simp [segmentsFrom]⟩
  | cons c t ih =>
    cases h with
    | cons hs h =>
      obtain ⟨u, us, hu⟩ := List.exists_cons_of_ne_nil (segmentsFrom_ne_nil separator (n.next c) t)
      obtain ⟨hhead, htail⟩ := ih h
      rw [hu] at hhead htail
      by_cases hc : n.isTop && c = separator
      · rw [segmentsFrom, if_pos hc, hu]
        rw [Bool.and_eq_true, Nesting.isTop_iff, decide_eq_true_eq] at hc
        obtain ⟨rfl, rfl⟩ := hc
        rw [Nesting.next_plain rfl hp] at hhead
        exact ⟨.nil _, List.forall_mem_cons.2 ⟨balanced_iff.2 hhead, htail⟩⟩
      · rw [segmentsFrom_cons hc, hu]
        exact ⟨.cons hs hhead, htail⟩

theorem segments_balanced (hp : Role.of separator = .plain) (h : Balanced t) :
    ∀ u ∈ segments separator t, Balanced u := by
  obtain ⟨u, us, hu⟩ := List.exists_cons_of_ne_nil (segmentsFrom_ne_nil separator {} t)
  obtain ⟨hhead, htail⟩ := segmentsFrom_balanced hp (balanced_iff.1 h)
  rw [hu] at hhead htail
  rw [segments, hu]
  exact List.forall_mem_cons.2 ⟨balanced_iff.2 hhead, htail⟩

theorem arguments_balanced (h : Balanced t) : ∀ a ∈ arguments t, Balanced a := by
  intro a ha
  obtain ⟨u, hu, rfl⟩ := List.mem_map.1 (List.mem_filter.1 ha).1
  exact balanced_trim.2 (segments_balanced (by decide) h u hu)

end CallChain.Text
