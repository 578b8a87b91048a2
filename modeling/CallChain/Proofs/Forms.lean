import CallChain.Proofs.ClearTexts
import CallChain.Proofs.Words
import Mathlib.Data.List.Induction

namespace CallChain

theorem Quote.isBlank_mark (q : Quote) : isBlank q.mark = false := by cases q <;> rfl

/-- A string literal without escapes on one line. -/
structure Quote.Literal (q : Quote) where
  contents : Text
  no_mark : q.mark ∉ contents
  no_escape : '\\' ∉ contents
  no_newline : '\n' ∉ contents

namespace Quote.Literal

variable {q : Quote}

instance : Inhabited q.Literal := ⟨⟨[], nofun, nofun, nofun⟩⟩

def text (l : q.Literal) : Text := q.mark :: l.contents ++ [q.mark]

theorem getLast?_append_text (l : q.Literal) (s : Text) : (s ++ l.text).getLast? = some q.mark := by
  rw [text, ← List.append_assoc, List.getLast?_concat]

theorem scan_contents {β : Type} {f : Nesting → Text → β} {g : Char → β → β}
    (hf : ∀ n c t, n.step c = .quoted → f n (c :: t) = g c (f (n.next c) t)) {n : Nesting}
    (hn : n.place = .literal q) {s : Text} (hmark : q.mark ∉ s) (hescape : '\\' ∉ s) (t : Text) :
    f n (s ++ t) = s.foldr g (f n t) := by
  induction s with
  | nil => rfl
  | cons c s ih =>
    rw [List.mem_cons, not_or] at hmark hescape
    have hstep : n.step c = .quoted := by rw [Nesting.step, hn]
    have hnext : n.next c = n := by
      rw [Nesting.next, hn]
      simp [Ne.symm hmark.1, Ne.symm hescape.1]
    rw [List.cons_append, hf n c _ hstep, hnext, ih hmark.2 hescape.2]
    rfl

/-- A function that passes over quoted characters one by one passes over a literal, and goes on
in the state it was in. -/
theorem scan {β : Type} {f : Nesting → Text → β} {g : Char → β → β}
    (hf : ∀ n c t, n.step c = .quoted → f n (c :: t) = g c (f (n.next c) t)) {n : Nesting}
    (hn : n.place = .code) (l : q.Literal) (t : Text) :
    f n (l.text ++ t) = l.text.foldr g (f n t) := by
  have hopen : n.step q.mark = .quoted := by rw [Nesting.step, hn, Role.of_mark]
  have hinside : (n.next q.mark).place = .literal q := by
    rw [Nesting.next, hn, Role.of_mark]
  have hclose : (n.next q.mark).step q.mark = .quoted := by rw [Nesting.step, hinside]
  have hback : (n.next q.mark).next q.mark = n := by
    rcases n with ⟨opened, place⟩
    cases hn
    cases q <;> rfl
  have hcontents := scan_contents hf hinside l.no_mark l.no_escape (q.mark :: t)
  have htext : l.text ++ t = q.mark :: (l.contents ++ q.mark :: t) := by simp [text]
  rw [htext, hf n q.mark _ hopen, hcontents, hf _ q.mark t hclose, hback]
  simp [text]

theorem after_text (l : q.Literal) {n : Nesting} (hn : n.place = .code) : n.after l.text = n := by
  have h := l.scan (f := fun n t ↦ n.after t) (g := fun _ m ↦ m) (fun _ _ _ _ ↦ rfl) hn []
  rw [List.append_nil] at h
  simpa using h

end Quote.Literal

/-- A text with places for a literal in it. -/
abbrev Form := List (Option Char)

namespace Form

def fill (literal : Text) (f : Form) : Text := f.flatMap fun o ↦ o.elim literal fun c ↦ [c]

section

variable (literal : Text) (f g : Form)

@[simp] theorem fill_nil : fill literal [] = [] := rfl

@[simp] theorem fill_none : fill literal (none :: f) = literal ++ fill literal f := rfl

@[simp] theorem fill_some (c : Char) : fill literal (some c :: f) = c :: fill literal f := rfl

@[simp] theorem fill_append : fill literal (f ++ g) = fill literal f ++ fill literal g :=
  List.flatMap_append

@[simp] theorem fill_map_some (t : Text) : fill literal (t.map some) = t := by
  induction t with
  | nil => rfl
  | cons c t ih => rw [List.map_cons, fill_some, ih]

end

/-- All places for a literal are in code. -/
def OpenFrom : Nesting → Form → Prop
  | _, [] => True
  | n, none :: f => n.place = .code ∧ OpenFrom n f
  | n, some c :: f => OpenFrom (n.next c) f

variable {q : Quote} {n m : Nesting} {f g : Form}

theorem openFrom_congr (h : n.place = m.place) : f.OpenFrom n ↔ f.OpenFrom m := by
  induction f generalizing n m with
  | nil => rfl
  | cons o f ih =>
    cases o with
    | none => rw [OpenFrom, OpenFrom, ih h, h]
    | some c => exact ih (Nesting.place_next h c)

theorem openFrom_map_some (t : Text) (n : Nesting) : OpenFrom n (t.map some) := by
  induction t generalizing n with
  | nil => trivial
  | cons c t ih => exact ih (n.next c)

theorem eq_map_some_of_not_mem (h : none ∉ f) : ∃ t : Text, f = t.map some := by
  induction f with
  | nil => exact ⟨[], rfl⟩
  | cons o f ih =>
    rw [List.mem_cons, not_or] at h
    obtain ⟨t, rfl⟩ := ih h.2
    obtain ⟨c, rfl⟩ := Option.ne_none_iff_exists'.1 (Ne.symm h.1)
    exact ⟨c :: t, rfl⟩

theorem openFrom_append (l : q.Literal) :
    (f ++ g).OpenFrom n ↔ f.OpenFrom n ∧ g.OpenFrom (n.after (f.fill l.text)) := by
  induction f generalizing n with
  | nil => simp [OpenFrom]
  | cons o f ih =>
    cases o with
    | none =>
      rw [List.cons_append, OpenFrom, OpenFrom, ih, and_assoc, fill_none, Nesting.after_append]
      refine and_congr_right fun hn ↦ ?_
      rw [l.after_text hn]
    | some c => exact ih

theorem isPrefixOf_fill {needle : Text} (hneedle : Text.Plain needle) (f : Form) (l : q.Literal) :
    needle.isPrefixOf (f.fill l.text) = (needle.map some).isPrefixOf f := by
  induction needle generalizing f with
  | nil => rfl
  | cons c needle ih =>
    have hc : c ≠ q.mark := by
      rintro rfl
      have := hneedle q.mark (by simp)
      simp at this
    cases f with
    | nil => rfl
    | cons o f =>
      cases o with
      | none => simp [Quote.Literal.text, List.isPrefixOf, hc]
      | some d =>
        rw [fill_some, List.map_cons, List.isPrefixOf, List.isPrefixOf,
          ih (fun d hd ↦ hneedle d (by simp [hd])) f]
        rfl

/-- What a function finds in the texts of a form: nothing in all of them, or a cut at one place. -/
def IsCut (q : Quote) (n : Nesting) (find : Nesting → Text → Option Cut) (f : Form) : Prop :=
  (∀ l : q.Literal, find n (f.fill l.text) = none) ∨
    ∃ g h : Form, g.OpenFrom n ∧ h.OpenFrom {} ∧
      ∀ l : q.Literal, find n (f.fill l.text) = some ⟨g.fill l.text, h.fill l.text⟩

theorem isCut_cons {find : Nesting → Text → Option Cut} {c : Char} (h : IsCut q (n.next c) find f)
    (hpass : ∀ l : q.Literal, find n (c :: f.fill l.text) =
      (find (n.next c) (f.fill l.text)).map (Cut.cons c)) : IsCut q n find (some c :: f) := by
  obtain hnone | ⟨g, h, hg, hh, hsome⟩ := h
  · refine .inl fun l ↦ ?_
    rw [fill_some, hpass, hnone]
    rfl
  · refine .inr ⟨some c :: g, h, hg, hh, fun l ↦ ?_⟩
    rw [fill_some, hpass, hsome]
    rfl

theorem foldr_map_cons (s : Text) (k : Option Cut) :
    s.foldr (fun c ↦ Option.map (Cut.cons c)) k = k.map fun k ↦ ⟨s ++ k.before, k.after⟩ := by
  induction s with
  | nil => simp
  | cons c s ih =>
    rw [List.foldr_cons, ih, Option.map_map]
    rfl

/-- It is enough to know what the function does at the characters of code. -/
theorem isCut_of_scan {find : Nesting → Text → Option Cut} (hnil : ∀ n, find n [] = none)
    (hquoted : ∀ n c t, n.step c = .quoted →
      find n (c :: t) = (find (n.next c) t).map (Cut.cons c))
    (hcode : ∀ n c f, n.step c ≠ .quoted → OpenFrom (n.next c) f → IsCut q (n.next c) find f →
      IsCut q n find (some c :: f)) (hf : f.OpenFrom n) : IsCut q n find f := by
  induction f generalizing n with
  | nil => exact .inl fun _ ↦ hnil n
  | cons o f ih =>
    cases o with
    | none =>
      have hskip : ∀ l : q.Literal, find n (l.text ++ fill l.text f) =
          (find n (fill l.text f)).map fun k ↦ ⟨l.text ++ k.before, k.after⟩ := by
        intro l
        rw [l.scan hquoted hf.1, foldr_map_cons]
      obtain hnone | ⟨g, h, hg, hh, hsome⟩ := ih hf.2
      · refine .inl fun l ↦ ?_
        rw [fill_none, hskip, hnone]
        rfl
      · refine .inr ⟨none :: g, h, ⟨hf.1, hg⟩, hh, fun l ↦ ?_⟩
        rw [fill_none, hskip, hsome]
        rfl
    | some c =>
      by_cases hc : n.step c = .quoted
      · exact isCut_cons (ih hf) fun l ↦ hquoted n c _ hc
      · exact hcode n c f hc hf (ih hf)

section Needles

variable {needle : Text} {c : Char}

theorem not_here_of_quoted (hneedle : Text.Plain needle) (hne : needle ≠ [])
    (h : n.step c = .quoted) (t : Text) : (n.isTop && needle.isPrefixOf (c :: t)) = false := by
  obtain ⟨d, needle, rfl⟩ := List.exists_cons_of_ne_nil hne
  rw [Bool.and_eq_false_iff]
  by_cases htop : n.isTop
  · refine .inr ?_
    have hd : d ≠ c := by
      rintro rfl
      rw [Nesting.isTop_iff.1 htop, Nesting.step_plain rfl (hneedle d (by simp))] at h
      contradiction
    simp [List.isPrefixOf, hd]
  · exact .inl (by simpa using htop)

theorem isCut_here (hneedle : Text.Plain needle) {find : Nesting → Text → Option Cut}
    (htop : n.isTop) (hfound : (needle.map some).isPrefixOf (some c :: f))
    (hf : OpenFrom (n.next c) f) (hfind : ∀ l : q.Literal,
      find n (c :: f.fill l.text) = some ⟨[], (c :: f.fill l.text).drop needle.length⟩) :
    IsCut q n find (some c :: f) := by
  obtain ⟨h, hh⟩ := List.isPrefixOf_iff_prefix.1 hfound
  have hopen : OpenFrom n (needle.map some ++ h) := by
    rw [hh]
    exact hf
  have hfill : ∀ l : q.Literal, c :: f.fill l.text = needle ++ fill l.text h := by
    intro l
    rw [← fill_some, ← hh, fill_append, fill_map_some]
  have hstart := Nesting.isTop_iff.1 htop
  have hrest := ((openFrom_append (default : q.Literal)).1 hopen).2
  rw [fill_map_some, hstart, (hneedle.reads rfl).after_eq] at hrest
  refine .inr ⟨[], h, trivial, hrest, fun l ↦ ?_⟩
  rw [fill_some, hfind, hfill, List.drop_left]
  rfl

theorem isCut_cutFirst (hneedle : Text.Plain needle) (hne : needle ≠ []) (hf : f.OpenFrom n) :
    IsCut q n (Text.cutFirstFrom needle) f := by
  refine isCut_of_scan (fun _ ↦ rfl) ?_ ?_ hf
  · intro n c t hc
    rw [Text.cutFirstFrom, not_here_of_quoted hneedle hne hc, if_neg Bool.false_ne_true]
  · intro n c f _ hf hcut
    have hfound : ∀ l : q.Literal, needle.isPrefixOf (c :: fill l.text f) =
      (needle.map some).isPrefixOf (some c :: f) := isPrefixOf_fill hneedle (some c :: f)
    by_cases hhere : n.isTop && (needle.map some).isPrefixOf (some c :: f)
    · rw [Bool.and_eq_true] at hhere
      refine isCut_here hneedle hhere.1 hhere.2 hf fun l ↦ ?_
      rw [Text.cutFirstFrom, hfound, hhere.1, hhere.2]
      rfl
    · refine isCut_cons hcut fun l ↦ ?_
      rw [Text.cutFirstFrom, hfound, if_neg hhere]

theorem isCut_cutLast (hneedle : Text.Plain needle) (hne : needle ≠ []) (hf : f.OpenFrom n) :
    IsCut q n (Text.cutLastFrom needle) f := by
  refine isCut_of_scan (fun _ ↦ rfl) ?_ ?_ hf
  · intro n c t hc
    rw [Text.cutLastFrom, not_here_of_quoted hneedle hne hc]
    cases Text.cutLastFrom needle (n.next c) t <;> rfl
  · intro n c f _ hf hcut
    have hfound : ∀ l : q.Literal, needle.isPrefixOf (c :: fill l.text f) =
      (needle.map some).isPrefixOf (some c :: f) := isPrefixOf_fill hneedle (some c :: f)
    by_cases hhere : n.isTop && (needle.map some).isPrefixOf (some c :: f)
    · obtain hnone | hlater := id hcut
      · rw [Bool.and_eq_true] at hhere
        refine isCut_here hneedle hhere.1 hhere.2 hf fun l ↦ ?_
        rw [Text.cutLastFrom, hnone l, hfound, hhere.1, hhere.2]
        rfl
      · obtain ⟨g, h, -, -, hsome⟩ := hlater
        refine isCut_cons hcut fun l ↦ ?_
        rw [Text.cutLastFrom, hsome l]
        rfl
    · refine isCut_cons hcut fun l ↦ ?_
      rw [Text.cutLastFrom, hfound, if_neg hhere]
      cases Text.cutLastFrom needle (n.next c) (fill l.text f) <;> rfl

end Needles

theorem isCut_bracket {find : Nesting → Text → Option Cut} {here : Nesting → Char → Bool}
    (hhere : ∀ n c, here n c → n.step c ≠ .quoted ∧ (n.next c).place = .code)
    (hnil : ∀ n, find n [] = none)
    (hfind : ∀ n c t, find n (c :: t) = if here n c then some ⟨[], t⟩ else
      if n.step c = .mismatch then none else (find (n.next c) t).map (Cut.cons c))
    (hf : f.OpenFrom n) : IsCut q n find f := by
  refine isCut_of_scan hnil ?_ ?_ hf
  · intro n c t hc
    rw [hfind, if_neg fun h ↦ (hhere n c h).1 hc, if_neg (by rw [hc]; nofun)]
  · intro n c f _ hf hcut
    by_cases hc : here n c
    · refine .inr ⟨[], f, trivial, (openFrom_congr (hhere n c hc).2).1 hf, fun l ↦ ?_⟩
      rw [fill_some, hfind, if_pos hc]
      rfl
    · by_cases hstray : n.step c = .mismatch
      · refine .inl fun l ↦ ?_
        rw [fill_some, hfind, if_neg hc, if_pos hstray]
      · refine isCut_cons hcut fun l ↦ ?_
        rw [hfind, if_neg hc, if_neg hstray]

theorem isCut_openGroup (hf : f.OpenFrom n) : IsCut q n Text.openGroupFrom f := by
  have hopen : ∀ (n : Nesting) (c : Char), n.isTop && c = '(' →
      n.step c ≠ .quoted ∧ (n.next c).place = .code := by
    intro n c hc
    rw [Bool.and_eq_true, decide_eq_true_eq] at hc
    rw [Nesting.isTop_iff.1 hc.1, hc.2]
    decide
  exact isCut_bracket hopen (fun _ ↦ rfl) (fun _ _ _ ↦ rfl) hf

theorem isCut_closeGroup (hf : f.OpenFrom n) : IsCut q n Text.closeGroupFrom f := by
  have hclose : ∀ (n : Nesting) (c : Char), n = .within .round && c = ')' →
      n.step c ≠ .quoted ∧ (n.next c).place = .code := by
    intro n c hc
    rw [Bool.and_eq_true, decide_eq_true_eq, decide_eq_true_eq] at hc
    rw [hc.1, hc.2]
    decide
  exact isCut_bracket hclose (fun _ ↦ rfl) (fun _ _ _ ↦ rfl) hf

theorem segmentsFrom_quoted {separator : Char} (hplain : Role.of separator = .plain) {c : Char}
    (h : n.step c = .quoted) (t : Text) : Text.segmentsFrom separator n (c :: t) =
      (Text.segmentsFrom separator (n.next c) t).modifyHead (List.cons c) := by
  refine Text.segmentsFrom_cons fun hc ↦ ?_
  rw [Bool.and_eq_true, decide_eq_true_eq] at hc
  rw [hc.2, Nesting.isTop_iff.1 hc.1, Nesting.step_plain rfl hplain] at h
  contradiction

theorem foldr_modifyHead_cons (s t : Text) (ts : List Text) :
    s.foldr (fun c ↦ List.modifyHead (List.cons c)) (t :: ts) = (s ++ t) :: ts := by
  induction s with
  | nil => rfl
  | cons c s ih =>
    rw [List.foldr_cons, ih]
    rfl

theorem segmentsFrom_fill {separator : Char} (hplain : Role.of separator = .plain)
    (hf : f.OpenFrom n) :
    ∃ (g : Form) (hs : List Form), g.OpenFrom n ∧ (∀ h ∈ hs, OpenFrom {} h) ∧
      ∀ l : q.Literal,
        Text.segmentsFrom separator n (f.fill l.text) = (g :: hs).map (fill l.text) := by
  induction f generalizing n with
  | nil => exact ⟨[], [], trivial, nofun, fun _ ↦ rfl⟩
  | cons o f ih =>
    cases o with
    | none =>
      obtain ⟨g, hs, hg, hhs, hseg⟩ := ih hf.2
      refine ⟨none :: g, hs, ⟨hf.1, hg⟩, hhs, fun l ↦ ?_⟩
      rw [fill_none, l.scan (fun n c t hc ↦ segmentsFrom_quoted hplain hc t) hf.1, hseg,
        List.map_cons, foldr_modifyHead_cons]
      rfl
    | some c =>
      obtain ⟨g, hs, hg, hhs, hseg⟩ := ih hf
      by_cases hc : n.isTop && c = separator
      · have hhere := hc
        rw [Bool.and_eq_true, decide_eq_true_eq] at hc
        rw [hc.2, Nesting.isTop_iff.1 hc.1, Nesting.next_plain rfl hplain] at hg
        refine ⟨[], g :: hs, trivial, List.forall_mem_cons.2 ⟨hg, hhs⟩, fun l ↦ ?_⟩
        rw [fill_some, Text.segmentsFrom, if_pos hhere, hseg]
        rfl
      · refine ⟨some c :: g, hs, hg, hhs, fun l ↦ ?_⟩
        rw [fill_some, Text.segmentsFrom_cons hc, hseg]
        rfl

theorem cutCommentFrom_quoted {c : Char} (h : n.step c = .quoted) (t : Text) :
    (Text.cutCommentFrom n (c :: t)).1 = c :: (Text.cutCommentFrom (n.next c) t).1 := by
  rw [Text.cutCommentFrom_cons]
  intro hc
  rw [Bool.and_eq_true, decide_eq_true_eq, Nesting.inString, Bool.not_eq_true', bne_eq_false_iff_eq]
    at hc
  rw [hc.1, Nesting.step_plain hc.2 rfl] at h
  contradiction

theorem cutCommentFrom_fill (hf : f.OpenFrom n) :
    ∃ g : Form, g.OpenFrom n ∧
      ∀ l : q.Literal, (Text.cutCommentFrom n (f.fill l.text)).1 = g.fill l.text := by
  induction f generalizing n with
  | nil => exact ⟨[], trivial, fun _ ↦ rfl⟩
  | cons o f ih =>
    cases o with
    | none =>
      obtain ⟨g, hg, hcut⟩ := ih hf.2
      refine ⟨none :: g, ⟨hf.1, hg⟩, fun l ↦ ?_⟩
      have hskip := l.scan (f := fun n t ↦ (Text.cutCommentFrom n t).1) (g := List.cons)
        (fun n c t hc ↦ cutCommentFrom_quoted hc t) hf.1 (fill l.text f)
      rw [fill_none, fill_none, ← hcut l]
      simpa using hskip
    | some c =>
      obtain ⟨g, hg, hcut⟩ := ih hf
      by_cases hc : c = '#' && !n.inString
      · refine ⟨[], trivial, fun l ↦ ?_⟩
        rw [fill_some, Text.cutCommentFrom, if_pos hc]
        rfl
      · refine ⟨some c :: g, hg, fun l ↦ ?_⟩
        rw [fill_some, Text.cutCommentFrom_cons hc, hcut]
        rfl

theorem same_of_scan {β : Type} (tell : Nesting → Text → β)
    (hquoted : ∀ n c t, n.step c = .quoted → tell n (c :: t) = tell (n.next c) t)
    (hcode : ∀ n c f, n.step c ≠ .quoted →
      (∀ l l' : q.Literal, tell (n.next c) (fill l.text f) = tell (n.next c) (fill l'.text f)) →
      ∀ l l' : q.Literal, tell n (c :: fill l.text f) = tell n (c :: fill l'.text f))
    (hf : f.OpenFrom n) (l l' : q.Literal) : tell n (f.fill l.text) = tell n (f.fill l'.text) := by
  induction f generalizing n l l' with
  | nil => rfl
  | cons o f ih =>
    cases o with
    | none =>
      have hskip : ∀ k : q.Literal, tell n (k.text ++ fill k.text f) = tell n (fill k.text f) := by
        intro k
        rw [k.scan (g := fun _ b ↦ b) hquoted hf.1, List.foldr_fixed]
      rw [fill_none, fill_none, hskip, hskip, ih hf.2 l l']
    | some c =>
      by_cases hc : n.step c = .quoted
      · rw [fill_some, fill_some, hquoted n c _ hc, hquoted n c _ hc, ih hf l l']
      · exact hcode n c f hc (fun l l' ↦ ih hf l l') l l'

theorem isEmpty_fill (f : Form) (l : q.Literal) : (f.fill l.text).isEmpty = f.isEmpty := by
  cases f with
  | nil => rfl
  | cons o f => cases o <;> rfl

theorem closesAtEnd_fill (hf : f.OpenFrom n) (l l' : q.Literal) :
    Text.closesAtEndFrom n (f.fill l.text) = Text.closesAtEndFrom n (f.fill l'.text) := by
  refine same_of_scan Text.closesAtEndFrom ?_ ?_ hf l l'
  · intro n c t hc
    rw [Text.closesAtEndFrom, hc]
  · intro n c f _ hsame l l'
    rw [Text.closesAtEndFrom, Text.closesAtEndFrom, hsame l l', isEmpty_fill, isEmpty_fill]

theorem reads_fill (hf : f.OpenFrom n) (l l' : q.Literal) :
    n.Reads (f.fill l.text) m = n.Reads (f.fill l'.text) m := by
  have hcons : ∀ (n : Nesting) (c : Char) (t : Text), n.step c ≠ .mismatch →
      n.Reads (c :: t) m = (n.next c).Reads t m := by
    intro n c t hc
    refine propext ⟨fun h ↦ ?_, .cons hc⟩
    cases h
    assumption
  refine same_of_scan (fun n t ↦ n.Reads t m) ?_ ?_ hf l l'
  · intro n c t hc
    exact hcons n c t (by rw [hc]; nofun)
  · intro n c f _ hsame l l'
    by_cases hc : n.step c = .mismatch
    · have hno : ∀ t, ¬n.Reads (c :: t) m := by
        intro t h
        cases h
        contradiction
      exact propext ⟨fun h ↦ absurd h (hno _), fun h ↦ absurd h (hno _)⟩
    · rw [hcons n c _ hc, hcons n c _ hc, hsame l l']

theorem head?_fill (f : Form) (l l' : q.Literal) :
    (f.fill l.text).head? = (f.fill l'.text).head? := by
  cases f with
  | nil => rfl
  | cons o f => cases o <;> rfl

theorem getLast?_fill (f : Form) (l l' : q.Literal) :
    (f.fill l.text).getLast? = (f.fill l'.text).getLast? := by
  rcases List.eq_nil_or_concat f with rfl | ⟨f, o, rfl⟩
  · rfl
  · rw [List.concat_eq_append, fill_append, fill_append]
    cases o with
    | none => simp only [fill_none, fill_nil, List.append_nil, Quote.Literal.getLast?_append_text]
    | some c => simp only [fill_some, fill_nil, List.getLast?_concat]

theorem exists_span {p : Char → Bool} (hp : ∀ c, p c → Role.of c = .plain) (hf : f.OpenFrom {}) :
    ∃ (t : Text) (g : Form), g.OpenFrom {} ∧ ∀ l : q.Literal,
      (f.fill l.text).takeWhile p = t ∧ (f.fill l.text).dropWhile p = g.fill l.text := by
  induction f with
  | nil => exact ⟨[], [], trivial, fun _ ↦ ⟨rfl, rfl⟩⟩
  | cons o f ih =>
    cases o with
    | none =>
      have hmark : p q.mark = false := by
        rw [Bool.eq_false_iff]
        intro h
        have := hp _ h
        simp at this
      refine ⟨[], none :: f, hf, fun l ↦ ?_⟩
      simp [Quote.Literal.text, hmark]
    | some c =>
      by_cases hc : p c
      · have hnext : ({} : Nesting).next c = {} := Nesting.next_plain rfl (hp c hc)
        rw [OpenFrom, hnext] at hf
        obtain ⟨t, g, hg, hspan⟩ := ih hf
        refine ⟨c :: t, g, hg, fun l ↦ ?_⟩
        rw [fill_some, List.takeWhile_cons_of_pos hc, List.dropWhile_cons_of_pos hc, (hspan l).1]
        exact ⟨rfl, (hspan l).2⟩
      · refine ⟨[], some c :: f, hf, fun l ↦ ?_⟩
        rw [fill_some, List.takeWhile_cons_of_neg hc, List.dropWhile_cons_of_neg hc]
        exact ⟨rfl, rfl⟩

theorem exists_trimEnd (hf : f.OpenFrom n) :
    ∃ g : Form, g.OpenFrom n ∧ ∀ l : q.Literal, Text.trimEnd (f.fill l.text) = g.fill l.text := by
  induction f using List.reverseRecOn with
  | nil => exact ⟨[], trivial, fun _ ↦ rfl⟩
  | append_singleton f o ih =>
    by_cases ho : ∃ c, o = some c ∧ isBlank c
    · obtain ⟨c, rfl, hc⟩ := ho
      obtain ⟨g, hg, htrim⟩ := ih ((openFrom_append (default : q.Literal)).1 hf).1
      refine ⟨g, hg, fun l ↦ ?_⟩
      rw [fill_append, Text.trimEnd_append_blank (by simpa [Text.isBlank] using hc), htrim]
    · refine ⟨f ++ [o], hf, fun l ↦ Text.trimEnd_eq_self fun c hc hblank ↦ ?_⟩
      cases o with
      | none =>
        rw [fill_append, fill_none, fill_nil, List.append_nil, l.getLast?_append_text] at hc
        cases hc
        rw [q.isBlank_mark] at hblank
        exact Bool.false_ne_true hblank
      | some d =>
        rw [fill_append, fill_some, fill_nil, List.getLast?_concat] at hc
        cases hc
        exact ho ⟨_, rfl, hblank⟩

theorem lastWord_fill (f : Form) (l l' : q.Literal) :
    Text.lastWord (f.fill l.text) = Text.lastWord (f.fill l'.text) := by
  have hmark : isIdentChar q.mark = false := by cases q <;> rfl
  induction f using List.reverseRecOn with
  | nil => rfl
  | append_singleton f o ih =>
    cases o with
    | none => simp [Text.lastWord, Quote.Literal.text, hmark]
    | some c =>
      rw [Text.lastWord, Text.lastWord, List.reverse_inj] at ih
      by_cases hc : isIdentChar c
      · simp [Text.lastWord, hc, ih]
      · simp [Text.lastWord, hc]

theorem eq_concat_of_getLast? {c : Char} (hc : c ≠ q.mark) {l : q.Literal}
    (h : (f.fill l.text).getLast? = some c) : ∃ g, f = g ++ [some c] := by
  rcases List.eq_nil_or_concat f with rfl | ⟨g, o, rfl⟩
  · simp at h
  · rw [List.concat_eq_append, fill_append] at h
    cases o with
    | none =>
      rw [fill_none, fill_nil, List.append_nil, l.getLast?_append_text] at h
      cases h
      contradiction
    | some d =>
      rw [fill_some, fill_nil, List.getLast?_concat] at h
      cases h
      exact ⟨g, List.concat_eq_append⟩

theorem closingQuoteFrom_fill {r : Quote} {escaped : Bool}
    (hn : n.place = if escaped then .escape r else .literal r) (hf : f.OpenFrom n)
    (l l' : q.Literal) :
    (Text.closingQuoteFrom r.mark escaped (f.fill l.text)).any (·.after.isEmpty) =
      (Text.closingQuoteFrom r.mark escaped (f.fill l'.text)).any (·.after.isEmpty) := by
  induction f generalizing n escaped with
  | nil => rfl
  | cons o f ih =>
    cases o with
    | none =>
      rw [hf.1] at hn
      cases escaped <;> contradiction
    | some c =>
      have hpass : ∀ (escaped : Bool),
          (n.next c).place = (if escaped then .escape r else .literal r) →
          ((Text.closingQuoteFrom r.mark escaped (fill l.text f)).map (Cut.cons c)).any
              (·.after.isEmpty) =
            ((Text.closingQuoteFrom r.mark escaped (fill l'.text f)).map (Cut.cons c)).any
              (·.after.isEmpty) := by
        intro escaped hnext
        rw [Option.any_map, Option.any_map]
        exact ih hnext hf
      rw [fill_some, fill_some, Text.closingQuoteFrom, Text.closingQuoteFrom]
      cases escaped with
      | true => exact hpass false (by rw [Nesting.next, hn]; rfl)
      | false =>
        have hliteral : n.place = .literal r := hn
        simp only [Bool.false_eq_true, if_false]
        by_cases hescape : c = '\\'
        · rw [if_pos hescape, if_pos hescape]
          refine hpass true ?_
          rw [Nesting.next, hliteral]
          simp [hescape]
        · rw [if_neg hescape, if_neg hescape]
          by_cases hmark : c = r.mark
          · rw [if_pos hmark, if_pos hmark]
            simp [isEmpty_fill]
          · rw [if_neg hmark, if_neg hmark]
            refine hpass false ?_
            rw [Nesting.next, hliteral]
            simp [hescape, hmark, hliteral]

end Form

end CallChain
