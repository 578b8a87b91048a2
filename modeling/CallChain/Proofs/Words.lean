import CallChain.CallSite
import CallChain.Proofs.Balance
import Mathlib.Data.List.TakeWhile

namespace CallChain

theorem not_isIdentChar_of_isBlank {c : Char} (h : isBlank c) : ¬isIdentChar c := by
  have hcode : c.toNat ∈ blanks.flatMap fun r ↦ List.range' r.1 (r.2 + 1 - r.1) := by
    obtain ⟨⟨first, last⟩, hmem, hle⟩ := List.any_eq_true.1 h
    simp only [Bool.and_eq_true, decide_eq_true_eq] at hle
    refine List.mem_flatMap.2 ⟨⟨first, last⟩, hmem, ?_⟩
    rw [List.mem_range'_1]
    omega
  have hall : (blanks.flatMap fun r ↦ List.range' r.1 (r.2 + 1 - r.1)).all fun n ↦
      !isIdentChar (Char.ofNat n) := by decide +kernel
  have hno := List.all_eq_true.1 hall c.toNat hcode
  simpa [Char.ofNat_toNat] using hno

/-- The characters of a dotted name. -/
def isNameChar (c : Char) : Bool := isIdentChar c || c = '.'

theorem not_isBlank_of_isNameChar {c : Char} (h : isNameChar c) : ¬isBlank c := by
  intro hb
  rw [isNameChar, Bool.or_eq_true, decide_eq_true_eq] at h
  obtain h | rfl := h
  · exact not_isIdentChar_of_isBlank hb h
  · revert hb
    decide

theorem Role.of_name {c : Char} (h : isNameChar c) : Role.of c = .plain :=
  plain_of_class h (by decide)

theorem Role.of_ident {c : Char} (h : isIdentChar c) : Role.of c = .plain :=
  plain_of_class h (by decide)

theorem toNat_of_isDigit {c : Char} (h : c.isDigit) : 48 ≤ c.toNat ∧ c.toNat ≤ 57 := by
  rw [Char.isDigit, Bool.and_eq_true, decide_eq_true_eq, decide_eq_true_eq] at h
  exact h

theorem not_isDigit_of_isIdentStart {c : Char} (h : isIdentStart c) : ¬c.isDigit := by
  intro hd
  have hcode := toNat_of_isDigit hd
  rw [isIdentStart, Bool.or_eq_true, decide_eq_true_eq] at h
  obtain h | rfl := h
  · rw [isLetter, if_pos (by omega)] at h
    obtain hupper | hlower := Bool.or_eq_true_iff.1 h
    · have : 65 ≤ c.toNat := (of_decide_eq_true hupper).1
      omega
    · have : 97 ≤ c.toNat := of_decide_eq_true (Bool.and_eq_true_iff.1 hlower).1
      omega
  · revert hd
    decide

theorem isIdentChar_of_isIdentifier {t : Text} (h : Text.isIdentifier t) :
    ∀ c ∈ t, isIdentChar c := by
  rw [Text.isIdentifier, Bool.and_eq_true] at h
  exact List.all_eq_true.1 h.2

namespace Text

theorem takeWhile_append_stop {p : Char → Bool} {s t : Text} (hs : ∀ c ∈ s, p c)
    (ht : ∀ c ∈ t.head?, ¬p c) : (s ++ t).takeWhile p = s ∧ (s ++ t).dropWhile p = t := by
  rw [List.takeWhile_append_of_pos hs, List.dropWhile_append_of_pos hs]
  cases t with
  | nil => simp
  | cons c t => simp [ht c rfl]

theorem trim_cons_blank {c : Char} (h : CallChain.isBlank c) (t : Text) :
    trim (c :: t) = trim t := by
  simp [trim, trimStart, h]

theorem trimStart_eq_self {t : Text} (h : ∀ c ∈ t.head?, ¬CallChain.isBlank c) :
    trimStart t = t := by
  cases t with
  | nil => rfl
  | cons c t =>
    have hc := h c rfl
    simp [trimStart, hc]

theorem trimEnd_eq_self {t : Text} (h : ∀ c ∈ t.getLast?, ¬CallChain.isBlank c) :
    trimEnd t = t := by
  rcases List.eq_nil_or_concat t with rfl | ⟨t, c, rfl⟩
  · rfl
  · have hc := h c (by simp)
    simp [trimEnd, hc]

theorem trim_eq_self {t : Text} (hhead : ∀ c ∈ t.head?, ¬CallChain.isBlank c)
    (hlast : ∀ c ∈ t.getLast?, ¬CallChain.isBlank c) : trim t = t := by
  rw [trim, trimStart_eq_self hhead, trimEnd_eq_self hlast]

theorem head?_trim (t : Text) : ∀ c ∈ (trim t).head?, ¬CallChain.isBlank c := by
  intro c hc
  have hstart : (trimStart t).head? = some c := by
    rw [← trimEnd_append (trimStart t), List.head?_append, ← trim, Option.mem_def.1 hc]
    rfl
  have hno := List.head?_dropWhile_not CallChain.isBlank t
  rw [← trimStart, hstart] at hno
  simp [hno]

theorem getLast?_trim (t : Text) : ∀ c ∈ (trim t).getLast?, ¬CallChain.isBlank c := by
  intro c hc
  have hno := List.head?_dropWhile_not CallChain.isBlank (trimStart t).reverse
  rw [trim, trimEnd, List.getLast?_reverse] at hc
  rw [Option.mem_def.1 hc] at hno
  simp [hno]

theorem trim_trim (t : Text) : trim (trim t) = trim t :=
  trim_eq_self (head?_trim t) (getLast?_trim t)

theorem dropWhile_isEmpty_iff {s : Text} :
    (s.dropWhile CallChain.isBlank).isEmpty ↔ isBlank s := by
  rw [List.isEmpty_iff, List.dropWhile_eq_nil_iff, isBlank, List.all_eq_true]

theorem exists_blanks (t : Text) :
    ∃ lead trail, t = lead ++ (trim t ++ trail) ∧ isBlank lead ∧ isBlank trail := by
  refine ⟨t.takeWhile CallChain.isBlank,
    ((trimStart t).reverse.takeWhile CallChain.isBlank).reverse, ?_, List.all_takeWhile, ?_⟩
  · rw [trim, trimEnd_append, trimStart, List.takeWhile_append_dropWhile]
  · rw [isBlank, List.all_reverse]
    exact List.all_takeWhile

section

variable {t u code : Text}

theorem not_isBlank_of_head? (h : ∀ c ∈ t.head?, ¬CallChain.isBlank c) (hne : t ≠ []) :
    ¬isBlank t := by
  obtain ⟨c, u, rfl⟩ := List.exists_cons_of_ne_nil hne
  intro hblank
  exact h c rfl (List.all_eq_true.1 hblank c (by simp))

theorem not_isBlank_of_getLast? (h : ∀ c ∈ t.getLast?, ¬CallChain.isBlank c) (hne : t ≠ []) :
    ¬isBlank t := by
  intro hblank
  have hlast := List.getLast?_eq_some_getLast hne
  exact h _ hlast (List.all_eq_true.1 hblank _ (List.getLast_mem hne))

theorem getLast?_of_suffix (h : t <:+ u) (hne : t ≠ []) : u.getLast? = t.getLast? := by
  obtain ⟨w, rfl⟩ := h
  rw [List.getLast?_append, List.getLast?_eq_some_getLast hne]
  rfl

theorem trim_of_suffix (hcode : trim code = code) (h : t <:+ code) : trim t = trimStart t := by
  refine trimEnd_eq_self fun c hc ↦ ?_
  have hne : trimStart t ≠ [] := by
    intro hnil
    simp [hnil] at hc
  have hlast := getLast?_trim code
  rw [hcode, getLast?_of_suffix ((trimStart_suffix t).trans h) hne] at hlast
  exact hlast c hc

theorem getLast?_trim_of_suffix (hcode : trim code = code) (h : t <:+ code) (hne : trim t ≠ []) :
    (trim t).getLast? = code.getLast? := by
  rw [trim_of_suffix hcode h] at hne ⊢
  exact (getLast?_of_suffix ((trimStart_suffix t).trans h) hne).symm

theorem eq_nil_of_suffix (hcode : trim code = code) (h : t <:+ code) (hnil : trim t = []) :
    t = [] := by
  by_contra hne
  have hlast := getLast?_trim code
  rw [hcode, getLast?_of_suffix h hne] at hlast
  rw [trim_of_suffix hcode h] at hnil
  exact not_isBlank_of_getLast? hlast hne (dropWhile_isEmpty_iff.1 (List.isEmpty_iff.2 hnil))

end

theorem trimStart_append_of_not_blank {s : Text} (h : ¬isBlank s) (t : Text) :
    trimStart (s ++ t) = trimStart s ++ t := by
  rw [trimStart, List.dropWhile_append, if_neg (mt dropWhile_isEmpty_iff.1 h)]
  rfl

theorem trimEnd_append_of_not_blank {t : Text} (h : ¬isBlank t) (s : Text) :
    trimEnd (s ++ t) = s ++ trimEnd t := by
  have hrev : ¬isBlank t.reverse := by rwa [isBlank, List.all_reverse]
  rw [trimEnd, List.reverse_append, List.dropWhile_append, if_neg (mt dropWhile_isEmpty_iff.1 hrev),
    List.reverse_append, List.reverse_reverse]
  rfl

theorem trimEnd_cons {t : Text} (h : ¬isBlank t) (c : Char) : trimEnd (c :: t) = c :: trimEnd t :=
  trimEnd_append_of_not_blank h [c]

theorem trimEnd_append_cons {t : Text} (h : ¬isBlank t) (s : Text) (c : Char) :
    trimEnd (s ++ c :: t) = s ++ c :: trimEnd t := by
  simpa using trimEnd_append_of_not_blank h (s ++ [c])

theorem trimEnd_append_blank {s t : Text} (ht : isBlank t) : trimEnd (s ++ t) = trimEnd s := by
  have hall : ∀ c ∈ t.reverse, CallChain.isBlank c := by
    intro c hc
    exact List.all_eq_true.1 ht c (List.mem_reverse.1 hc)
  rw [trimEnd, trimEnd, List.reverse_append, List.dropWhile_append_of_pos hall]

variable {f : Text}

theorem isNameChar_of_isFunctionName (h : isFunctionName f) :
    ∀ c ∈ (Flag.split f).2, isNameChar c := by
  simp only [isFunctionName, Bool.and_eq_true] at h
  exact List.all_eq_true.1 h.1.2

theorem trim_of_names (h : ∀ c ∈ f, isNameChar c) : trim f = f :=
  trim_eq_self (fun c hc ↦ not_isBlank_of_isNameChar (h c (List.mem_of_mem_head? hc)))
    fun c hc ↦ not_isBlank_of_isNameChar (h c (List.mem_of_getLast? hc))

theorem plain_of_isFunctionName (h : isFunctionName f) : Plain (Flag.split f).2 := fun c hc ↦
  Role.of_name (isNameChar_of_isFunctionName h c hc)

theorem pieces_ne_nil (separator : Char) (t : Text) : pieces separator t ≠ [] := by
  cases t with
  | nil => simp [pieces]
  | cons c t =>
    rw [pieces]
    split
    · simp
    · split <;> simp

theorem pieces_intercalate (separator : Char) (t : Text) :
    [separator].intercalate (pieces separator t) = t := by
  induction t with
  | nil => rfl
  | cons c t ih =>
    obtain ⟨p, ps, hp⟩ := List.exists_cons_of_ne_nil (pieces_ne_nil separator t)
    rw [hp] at ih
    rw [pieces]
    split
    · rename_i hc
      rw [hp, hc, List.intercalate_cons_cons, ih]
      rfl
    · rw [hp]
      cases ps with
      | nil => simpa [List.intercalate] using ih
      | cons q qs =>
        rw [List.intercalate_cons_cons] at ih ⊢
        rw [← ih]
        rfl

theorem pieces_separator (separator : Char) (t : Text) :
    pieces separator (separator :: t) = [] :: pieces separator t := by
  rw [pieces, if_pos rfl]

theorem pieces_cons {separator c : Char} (h : c ≠ separator) (t : Text) :
    pieces separator (c :: t) = (pieces separator t).modifyHead (c :: ·) := by
  obtain ⟨p, ps, hp⟩ := List.exists_cons_of_ne_nil (pieces_ne_nil separator t)
  rw [pieces, if_neg h, hp]
  rfl

theorem pieces_append {separator : Char} {s : Text} (h : separator ∉ s) (t : Text) :
    pieces separator (s ++ t) = (pieces separator t).modifyHead (s ++ ·) := by
  obtain ⟨p, ps, hp⟩ := List.exists_cons_of_ne_nil (pieces_ne_nil separator t)
  induction s with
  | nil => simp [hp]
  | cons c s ih =>
    rw [List.mem_cons, not_or] at h
    rw [List.cons_append, pieces_cons (Ne.symm h.1), ih h.2, hp]
    rfl

theorem not_mem_of_isIdentifier {t : Text} (h : isIdentifier t) {c : Char}
    (hc : isIdentChar c = false) : c ∉ t := by
  intro hmem
  have hall := List.all_eq_true.1 (Bool.and_eq_true_iff.1 h).2 c hmem
  simp [hc] at hall

theorem plain_of_isIdentifier {t : Text} (h : isIdentifier t) : Plain t := fun c hc ↦
  Role.of_ident (isIdentChar_of_isIdentifier h c hc)

end Text

end CallChain
