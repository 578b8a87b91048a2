import CallChain.Nesting.Cut

namespace CallChain.Text

/-- The two sides of an offset, if it falls between two characters. -/
def cutAt? : Nat → Text → Option Cut
  | 0, t => some ⟨[], t⟩
  | _ + 1, [] => none
  | n + 1, c :: t =>
    if c.utf8Size ≤ n + 1 then (cutAt? (n + 1 - c.utf8Size) t).map (Cut.cons c) else none

/-- The text between two offsets. -/
def slice? (start stop : Nat) (t : Text) : Option Text :=
  if start ≤ stop then
    (cutAt? start t).bind fun k ↦ (cutAt? (stop - start) k.after).map (·.before)
  else none

variable {n start stop : Nat} {s t u : Text} {k : Cut}

theorem bytes_pos (h : t ≠ []) : 0 < bytes t := by
  obtain ⟨c, u, rfl⟩ := List.exists_cons_of_ne_nil h
  have := c.utf8Size_pos
  rw [bytes_cons]
  omega

theorem cutAt?_append (s t : Text) : cutAt? (bytes s) (s ++ t) = some ⟨s, t⟩ := by
  induction s with
  | nil => rw [bytes_nil, List.nil_append, cutAt?]
  | cons c s ih =>
    obtain ⟨n, hn⟩ := Nat.exists_eq_add_one.2 c.utf8Size_pos
    have hsize : bytes (c :: s) = n + bytes s + 1 := by rw [bytes_cons]; omega
    have hrest : n + bytes s + 1 - c.utf8Size = bytes s := by omega
    rw [hsize, List.cons_append, cutAt?, if_pos (by omega), hrest, ih]
    rfl

theorem cutAt?_eq_some_iff :
    cutAt? n t = some k ↔ k.before ++ k.after = t ∧ bytes k.before = n := by
  refine ⟨fun h ↦ ?_, ?_⟩
  · induction t generalizing n k with
    | nil =>
      cases n with
      | zero => cases h; exact ⟨rfl, rfl⟩
      | succ n => cases h
    | cons c t ih =>
      cases n with
      | zero => cases h; exact ⟨rfl, rfl⟩
      | succ n =>
        rw [cutAt?] at h
        split at h
        · obtain ⟨k', hk, rfl⟩ := Option.map_eq_some_iff.1 h
          obtain ⟨htext, hbytes⟩ := ih hk
          refine ⟨congrArg (c :: ·) htext, ?_⟩
          rw [Cut.cons, bytes_cons, hbytes]
          omega
        · cases h
  · rintro ⟨rfl, rfl⟩
    exact cutAt?_append k.before k.after

theorem slice?_eq_some_iff :
    slice? start stop t = some u ↔ ∃ before after, t = before ++ (u ++ after) ∧
      bytes before = start ∧ bytes (before ++ u) = stop := by
  constructor
  · intro h
    rw [slice?] at h
    split at h
    · obtain ⟨k, hk, h⟩ := Option.bind_eq_some_iff.1 h
      obtain ⟨k', hk', rfl⟩ := Option.map_eq_some_iff.1 h
      obtain ⟨rfl, rfl⟩ := cutAt?_eq_some_iff.1 hk
      obtain ⟨htext, hbytes⟩ := cutAt?_eq_some_iff.1 hk'
      refine ⟨k.before, k'.after, by rw [htext], rfl, ?_⟩
      rw [bytes_append, hbytes]
      omega
    · cases h
  · rintro ⟨before, after, rfl, rfl, rfl⟩
    have hlength : bytes before + bytes u - bytes before = bytes u := Nat.add_sub_cancel_left _ _
    rw [slice?, bytes_append, if_pos (Nat.le_add_right _ _), cutAt?_append, Option.bind_some,
      hlength, cutAt?_append]
    rfl

theorem isPrefixOf_singleton (c d : Char) (t : Text) :
    [d].isPrefixOf (c :: t) = decide (c = d) := by
  rw [Bool.eq_iff_iff, List.isPrefixOf_iff_prefix, decide_eq_true_iff, List.cons_prefix_cons]
  exact ⟨fun h ↦ h.1.symm, fun h ↦ ⟨h.symm, List.nil_prefix⟩⟩

theorem slice?_append (before u after : Text) :
    slice? (bytes before) (bytes (before ++ u)) (before ++ (u ++ after)) = some u :=
  slice?_eq_some_iff.2 ⟨before, after, rfl, rfl, rfl⟩

end CallChain.Text
