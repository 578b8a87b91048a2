import CallChain.Builtin

namespace CallChain

namespace Piece

variable {hole : Text} {i : Nat}

theorem isDigit_of_position? (h : position? hole = some i) : ∀ c ∈ hole, c.isDigit ∨ c = '+' := by
  have hdigits : ∀ digits : Text, ¬(digits.isEmpty || !digits.all Char.isDigit) →
      ∀ c ∈ digits, c.isDigit := by
    intro digits hne
    rw [Bool.or_eq_true, not_or, Bool.not_eq_true', Bool.not_eq_false, List.all_eq_true] at hne
    exact hne.2
  rw [position?.eq_def] at h
  dsimp only at h
  intro c hc
  split at h
  · split at h
    · cases h
    · rename_i digits hne
      obtain rfl | hc := List.mem_cons.1 hc
      · exact .inr rfl
      · exact .inl (hdigits digits hne c hc)
  · split at h
    · cases h
    · rename_i hne
      exact .inl (hdigits hole hne c hc)

theorem not_mem_of_position? (h : position? hole = some i) : '}' ∉ hole := by
  intro hmem
  exact absurd (isDigit_of_position? h '}' hmem) (by decide)

theorem fill_ofHole (hole : Text) (arguments : List Text) :
    (ofHole hole).fill arguments =
      if hole = ['*'] then ", ".toList.intercalate arguments
      else
        ((position? hole).map fun i ↦ arguments[i]?.getD noValue).getD ('{' :: hole ++ ['}']) := by
  rw [ofHole]
  split
  · rfl
  · cases position? hole with
    | none => rfl
    | some i => rfl

theorem fill_ofHole_position (h : position? hole = some i) (arguments : List Text) :
    (ofHole hole).fill arguments = arguments[i]?.getD noValue := by
  have hstar : hole ≠ ['*'] := by
    rintro rfl
    cases h
  rw [fill_ofHole, if_neg hstar, h]
  rfl

theorem fill_ofHole_unknown (hstar : hole ≠ ['*']) (h : position? hole = none)
    (arguments : List Text) :
    (ofHole hole).fill arguments = '{' :: hole ++ ['}'] := by
  rw [fill_ofHole, if_neg hstar, h]
  rfl

theorem position?_ofNat (h : i < 0x10000000000000000) : position? (Text.ofNat i) = some i := by
  have hdigits : ∀ c ∈ Text.ofNat i, c.isDigit := fun c hc ↦
    Nat.isDigit_of_mem_toDigits (by omega) (by omega) hc
  have hne : Text.ofNat i ≠ [] := Nat.toDigits_ne_nil
  have hvalue : Nat.ofDigitChars 10 (Text.ofNat i) 0 = i :=
    Nat.ofDigitChars_toDigits (by omega) (by omega)
  rw [position?.eq_def]
  dsimp only
  split
  · rename_i hplus
    exact absurd (hdigits '+' (by rw [hplus]; simp)) (by decide)
  · rw [hvalue, if_pos h, if_neg]
    simpa [hne] using hdigits

/-- Pieces that are read back as they were written. -/
def IsPlain : Piece → Prop
  | .text t => '{' ∉ t
  | .hole i => i < 0x10000000000000000
  | .all => True

instance (p : Piece) : Decidable p.IsPlain :=
  match p with
  | .text t => inferInstanceAs (Decidable ('{' ∉ t))
  | .hole i => inferInstanceAs (Decidable (i < 0x10000000000000000))
  | .all => inferInstanceAs (Decidable True)

end Piece

namespace Template

variable {s t hole rest : Text} {arguments : List Text}

/-- A template that is read from a text, filled. -/
def render (t : Text) (arguments : List Text) : Text := (ofText t).fill arguments

/-- Every brace that opens outside a hole starts one, up to the next closing brace. -/
inductive IsClosed : Text → Prop
  | nil : IsClosed []
  | char {c : Char} {t : Text} : c ≠ '{' → IsClosed t → IsClosed (c :: t)
  | hole {hole t : Text} : '}' ∉ hole → IsClosed t → IsClosed ('{' :: (hole ++ '}' :: t))

theorem readFrom_hole (h : '}' ∉ hole) (read t : Text) :
    readFrom (some read) (hole ++ '}' :: t) = Piece.ofHole (read ++ hole) :: readFrom none t := by
  induction hole generalizing read with
  | nil => rw [List.nil_append, readFrom, if_pos rfl, List.append_nil]
  | cons c hole ih =>
    rw [List.mem_cons, not_or] at h
    rw [List.cons_append, readFrom, if_neg (Ne.symm h.1), ih h.2, List.append_assoc]
    rfl

theorem readFrom_unclosed (h : '}' ∉ rest) (read : Text) :
    readFrom (some read) rest = [.text ('{' :: (read ++ rest))] := by
  induction rest generalizing read with
  | nil => rw [readFrom, List.append_nil]
  | cons c rest ih =>
    rw [List.mem_cons, not_or] at h
    rw [readFrom, if_neg (Ne.symm h.1), ih h.2, List.append_assoc]
    rfl

theorem ofText_char {c : Char} (h : c ≠ '{') (t : Text) :
    ofText (c :: t) = .text [c] :: ofText t := by
  rw [ofText, readFrom, if_neg h]
  rfl

theorem ofText_hole (h : '}' ∉ hole) (t : Text) :
    ofText ('{' :: (hole ++ '}' :: t)) = Piece.ofHole hole :: ofText t := by
  rw [ofText, readFrom, if_pos rfl, readFrom_hole h, List.nil_append]
  rfl

theorem ofText_unclosed (h : '}' ∉ rest) : ofText ('{' :: rest) = [.text ('{' :: rest)] := by
  rw [ofText, readFrom, if_pos rfl, readFrom_unclosed h, List.nil_append]

theorem IsClosed.ofText_append (h : IsClosed s) (t : Text) :
    ofText (s ++ t) = ofText s ++ ofText t := by
  induction h with
  | nil => rfl
  | char hc _ ih => rw [List.cons_append, ofText_char hc, ih, ofText_char hc, List.cons_append]
  | @hole hole s hhole _ ih =>
    rw [List.cons_append, List.append_assoc, List.cons_append, ofText_hole hhole, ih,
      ofText_hole hhole, List.cons_append]

theorem IsClosed.append (hs : IsClosed s) (ht : IsClosed t) : IsClosed (s ++ t) := by
  induction hs with
  | nil => exact ht
  | char hc _ ih => exact .char hc ih
  | @hole hole s hhole _ ih =>
    rw [List.cons_append, List.append_assoc]
    exact .hole hhole ih

theorem IsClosed.render_append (h : IsClosed s) (t : Text) (arguments : List Text) :
    render (s ++ t) arguments = render s arguments ++ render t arguments := by
  rw [render, h.ofText_append, fill, List.flatMap_append]
  rfl

theorem render_hole (h : '}' ∉ hole) (t : Text) (arguments : List Text) :
    render ('{' :: (hole ++ '}' :: t)) arguments =
      (Piece.ofHole hole).fill arguments ++ render t arguments := by
  rw [render, ofText_hole h]
  rfl

theorem render_unclosed (h : '}' ∉ rest) (arguments : List Text) :
    render ('{' :: rest) arguments = '{' :: rest := by
  rw [render, ofText_unclosed h, fill, List.flatMap_singleton]
  rfl

theorem render_of_not_mem (h : '{' ∉ t) (arguments : List Text) : render t arguments = t := by
  induction t with
  | nil => rfl
  | cons c t ih =>
    rw [List.mem_cons, not_or] at h
    rw [render, ofText_char (Ne.symm h.1), fill, List.flatMap_cons]
    exact congrArg (c :: ·) (ih h.2)

theorem isClosed_of_not_mem (h : '{' ∉ t) : IsClosed t := by
  induction t with
  | nil => exact .nil
  | cons c t ih =>
    rw [List.mem_cons, not_or] at h
    exact .char (Ne.symm h.1) (ih h.2)

/-- A template that is not closed ends in one hole that is not. -/
theorem isClosed_or (t : Text) :
    IsClosed t ∨ ∃ s rest, t = s ++ '{' :: rest ∧ IsClosed s ∧ '}' ∉ rest := by
  by_cases hopen : '{' ∈ t
  · obtain ⟨s, u, ht, hs⟩ := List.eq_append_cons_of_mem hopen
    have hs := isClosed_of_not_mem hs
    by_cases hclose : '}' ∈ u
    · obtain ⟨hole, v, hu, hhole⟩ := List.eq_append_cons_of_mem hclose
      have hlength : v.length < t.length := by
        rw [ht, hu]
        simp only [List.length_append, List.length_cons]
        omega
      obtain hv | ⟨w, rest, hv, hw, hrest⟩ := isClosed_or v
      · rw [ht, hu]
        exact .inl (hs.append (.hole hhole hv))
      · refine .inr ⟨s ++ '{' :: (hole ++ '}' :: w), rest, ?_, hs.append (.hole hhole hw), hrest⟩
        rw [ht, hu, hv]
        simp
    · exact .inr ⟨s, u, ht, hs, hclose⟩
  · exact .inl (isClosed_of_not_mem hopen)
termination_by t.length

/-- With an open hole at its end a template takes in the brace that closes the next one. -/
theorem render_append_ne (hs : IsClosed s) (hrest : '}' ∉ rest) :
    render (s ++ '{' :: rest ++ "{0}".toList) [] ≠
      render (s ++ '{' :: rest) [] ++ render "{0}".toList [] := by
  have hhole : '}' ∉ rest ++ ['{', '0'] := by simpa using hrest
  have hstar : rest ++ ['{', '0'] ≠ ['*'] := by
    intro heq
    simpa using congrArg List.getLast? heq
  have hposition : Piece.position? (rest ++ ['{', '0']) = none := by
    cases h : Piece.position? (rest ++ ['{', '0']) with
    | none => rfl
    | some i => exact absurd (Piece.isDigit_of_position? h '{' (by simp)) (by decide)
  have htext : s ++ '{' :: rest ++ "{0}".toList =
      s ++ '{' :: (rest ++ ['{', '0'] ++ '}' :: []) := by
    simp
  have hmissing : render "{0}".toList [] = noValue := by decide
  have hempty : render [] [] = [] := rfl
  rw [htext, hs.render_append, hs.render_append, render_hole hhole, render_unclosed hrest,
    Piece.fill_ofHole_unknown hstar hposition, hmissing, hempty]
  intro heq
  have htail : "{0}".toList = noValue := by simpa using heq
  exact absurd htail (by decide)

theorem isClosed_iff_render_append :
    IsClosed s ↔
      ∀ t arguments, render (s ++ t) arguments = render s arguments ++ render t arguments := by
  refine ⟨IsClosed.render_append, fun h ↦ ?_⟩
  obtain hs | ⟨s', rest, rfl, hs', hrest⟩ := isClosed_or s
  · exact hs
  · exact absurd (h _ _) (render_append_ne hs' hrest)

theorem isClosed_piece {p : Piece} (hp : p.IsPlain) : IsClosed p.written := by
  cases p with
  | text t => exact isClosed_of_not_mem hp
  | hole i => exact .hole (Piece.not_mem_of_position? (Piece.position?_ofNat hp)) .nil
  | all => exact @IsClosed.hole ['*'] [] (by decide) .nil

theorem render_piece {p : Piece} (hp : p.IsPlain) (arguments : List Text) :
    render p.written arguments = p.fill arguments := by
  have hempty : render [] arguments = [] := rfl
  cases p with
  | text t => exact render_of_not_mem hp arguments
  | hole i =>
    have hposition := Piece.position?_ofNat hp
    have hwritten : (Piece.hole i).written = '{' :: (Text.ofNat i ++ '}' :: []) := rfl
    rw [hwritten, render_hole (Piece.not_mem_of_position? hposition), hempty, List.append_nil,
      Piece.fill_ofHole_position hposition]
    rfl
  | all =>
    have hwritten : Piece.all.written = '{' :: (['*'] ++ '}' :: []) := rfl
    rw [hwritten, render_hole (by decide), hempty, List.append_nil]
    rfl

theorem render_written {template : Template} (h : ∀ p ∈ template, p.IsPlain) :
    IsClosed template.written ∧
      ∀ arguments, render template.written arguments = template.fill arguments := by
  induction template with
  | nil => exact ⟨.nil, fun _ ↦ rfl⟩
  | cons p template ih =>
    have hp := h p List.mem_cons_self
    obtain ⟨hclosed, hfill⟩ := ih fun q hq ↦ h q (List.mem_cons_of_mem p hq)
    have hwritten : written (p :: template) = p.written ++ written template := List.flatMap_cons
    refine ⟨hwritten ▸ (isClosed_piece hp).append hclosed, fun arguments ↦ ?_⟩
    rw [hwritten, (isClosed_piece hp).render_append, render_piece hp, hfill, fill, fill,
      List.flatMap_cons]

theorem table_plain : Builtin.table.all fun b ↦ b.template.all fun p ↦ p.IsPlain := by
  decide +kernel

theorem render_table {b : Builtin} (hb : b ∈ Builtin.table) :
    IsClosed b.template.written ∧
      ∀ arguments, render b.template.written arguments = b.template.fill arguments := by
  have hplain := List.all_eq_true.1 table_plain b hb
  rw [List.all_eq_true] at hplain
  exact render_written fun p hp ↦ of_decide_eq_true (hplain p hp)

/-- Templates are filled hole by hole, from the left. What fills a hole is not looked at again,
since neither the rest nor what stands in front depends on it, and the parts that can be cut off in
front are exactly those whose holes are closed. The written templates of the built-in functions are
such texts. -/
theorem render_onePass (s : Text) :
    (IsClosed s ↔
      ∀ t arguments, render (s ++ t) arguments = render s arguments ++ render t arguments) ∧
    (IsClosed s → ∀ (hole t : Text) (arguments : List Text), '}' ∉ hole →
      render (s ++ '{' :: (hole ++ '}' :: t)) arguments =
        render s arguments ++
          (if hole = ['*'] then ", ".toList.intercalate arguments
            else ((Piece.position? hole).map fun i ↦ arguments[i]?.getD noValue).getD
              ('{' :: hole ++ ['}'])) ++
          render t arguments) ∧
    (IsClosed s → ∀ (rest : Text) (arguments : List Text), '}' ∉ rest →
      render (s ++ '{' :: rest) arguments = render s arguments ++ '{' :: rest) ∧
    ('{' ∉ s → ∀ arguments, render s arguments = s) ∧
    ∀ b ∈ Builtin.table, IsClosed b.template.written ∧
      ∀ arguments, render b.template.written arguments = b.template.fill arguments := by
  refine ⟨isClosed_iff_render_append, fun hs hole t arguments hhole ↦ ?_,
    fun hs rest arguments hrest ↦ ?_, render_of_not_mem, fun b hb ↦ render_table hb⟩
  · rw [hs.render_append, render_hole hhole, Piece.fill_ofHole, List.append_assoc]
  · rw [hs.render_append, render_unclosed hrest]

theorem render_onePass_braces :
    let arguments := ["{1}".toList, ['}', '{', '*']]
    IsClosed "({0}".toList ∧
      render ("({0}".toList ++ ("{1}{x}".toList ++ ['{'])) arguments =
        render "({0}".toList arguments ++ render ("{1}{x}".toList ++ ['{']) arguments ∧
      render "({0}".toList arguments = "({1}".toList ∧
      render ("{1}{x}".toList ++ ['{']) arguments = ['}', '{', '*'] ++ "{x}".toList ++ ['{'] := by
  intro arguments
  have hclosed : IsClosed "({0}".toList :=
    .char (by decide) (@IsClosed.hole ['0'] [] (by decide) .nil)
  have hunknown : IsClosed "{x}".toList := @IsClosed.hole ['x'] [] (by decide) .nil
  obtain ⟨happend, -, -, -, -⟩ := render_onePass "({0}".toList
  obtain ⟨-, hhole, -, -, -⟩ := render_onePass []
  obtain ⟨-, -, hrest, -, -⟩ := render_onePass "{x}".toList
  refine ⟨hclosed, happend.1 hclosed _ _, by decide, ?_⟩
  refine (hhole .nil ['1'] ("{x}".toList ++ ['{']) arguments (by decide)).trans ?_
  rw [hrest hunknown [] arguments (by decide)]
  decide

end Template

end CallChain
