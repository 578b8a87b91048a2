import CallChain.Proofs.CallSites
import CallChain.Proofs.Forms
import CallChain.Proofs.Statements

namespace CallChain

/-- One value for each literal. -/
abbrev Family (q : Quote) (α : Type) := q.Literal → α

namespace Family

variable {q : Quote} {α β : Type}

/-- The value does not depend on the literal. -/
def Same (x : Family q α) : Prop := ∀ l l', x l = x l'

/-- There is no value for any literal, or values for all. -/
def Optional (P : Family q α → Prop) (x : Family q (Option α)) : Prop :=
  (∀ l, x l = none) ∨ ∃ a, P a ∧ ∀ l, x l = some (a l)

/-- The lists have the same length for all literals. -/
def Each (P : Family q α → Prop) (x : Family q (List α)) : Prop :=
  ∃ as : List (Family q α), (∀ a ∈ as, P a) ∧ ∀ l, x l = as.map fun a ↦ a l

end Family

open Family

/-- The texts are those of a form. -/
def Text.Carries {q : Quote} (T : Family q Text) : Prop :=
  ∃ f : Form, f.OpenFrom {} ∧ ∀ l, T l = f.fill l.text

namespace Text.Carries

variable {q : Quote} {T T' : Family q Text}

theorem const (t : Text) : Carries fun _ : q.Literal ↦ t :=
  ⟨t.map some, Form.openFrom_map_some t {}, fun l ↦ (Form.fill_map_some l.text t).symm⟩

theorem eq_fill (h : Carries T) : ∃ f : Form, f.OpenFrom {} ∧ T = fun l ↦ f.fill l.text := by
  obtain ⟨f, hf, hfill⟩ := h
  exact ⟨f, hf, funext hfill⟩

theorem append (h : Carries T) (hT : ∀ l, Balanced (T l)) (h' : Carries T') :
    Carries fun l ↦ T l ++ T' l := by
  obtain ⟨f, hf, rfl⟩ := h.eq_fill
  obtain ⟨g, hg, rfl⟩ := h'.eq_fill
  have hback := (balanced_iff.1 (hT default)).after_eq
  refine ⟨f ++ g, (Form.openFrom_append (default : q.Literal)).2 ⟨hf, ?_⟩, fun l ↦ ?_⟩
  · rw [hback]
    exact hg
  · exact (Form.fill_append l.text f g).symm

theorem enclosed (h : Carries T) : Carries fun l ↦ '(' :: T l ++ [')'] := by
  obtain ⟨f, hf, rfl⟩ := h.eq_fill
  have hcode : ({} : Nesting).place = (({} : Nesting).next '(').place := rfl
  have hinside : Form.OpenFrom {} (some '(' :: f) := (Form.openFrom_congr hcode).1 hf
  refine ⟨some '(' :: f ++ [some ')'], ?_, fun l ↦ ?_⟩
  · exact (Form.openFrom_append (default : q.Literal)).2 ⟨hinside, Form.openFrom_map_some [')'] _⟩
  · simp

theorem const_or_mark (h : Carries T) : (∃ t, ∀ l, T l = t) ∨ ∀ l, q.mark ∈ T l := by
  obtain ⟨f, -, rfl⟩ := h.eq_fill
  by_cases hnone : none ∈ f
  · refine .inr fun l ↦ ?_
    obtain ⟨g, h, rfl⟩ := List.append_of_mem hnone
    simp [Quote.Literal.text]
  · obtain ⟨t, rfl⟩ := Form.eq_map_some_of_not_mem hnone
    exact .inl ⟨t, fun l ↦ Form.fill_map_some l.text t⟩

theorem same_of_no_mark {p : Text → Bool} (hp : ∀ t, q.mark ∈ t → p t = false) (h : Carries T) :
    Same fun l ↦ p (T l) := by
  intro l l'
  obtain ⟨t, ht⟩ | hmark := h.const_or_mark
  · simp only [ht]
  · simp only [hp _ (hmark l), hp _ (hmark l')]

theorem balanced_iff_of (h : Carries T) (l l' : q.Literal) : Balanced (T l) ↔ Balanced (T l') := by
  obtain ⟨f, hf, rfl⟩ := h.eq_fill
  rw [balanced_iff, balanced_iff, Form.reads_fill hf l l']

theorem same_isEmpty (h : Carries T) : Same fun l ↦ (T l).isEmpty := by
  obtain ⟨f, -, rfl⟩ := h.eq_fill
  intro l l'
  simp only [Form.isEmpty_fill]

theorem same_head? (h : Carries T) : Same fun l ↦ (T l).head? := by
  obtain ⟨f, -, rfl⟩ := h.eq_fill
  exact f.head?_fill

theorem same_getLast? (h : Carries T) : Same fun l ↦ (T l).getLast? := by
  obtain ⟨f, -, rfl⟩ := h.eq_fill
  exact f.getLast?_fill

theorem span {p : Char → Bool} (hp : ∀ c, p c → Role.of c = .plain) (h : Carries T) :
    (∃ t, ∀ l, (T l).takeWhile p = t) ∧ Carries fun l ↦ (T l).dropWhile p := by
  obtain ⟨f, hf, rfl⟩ := h.eq_fill
  obtain ⟨t, g, hg, hspan⟩ := Form.exists_span (q := q) hp hf
  exact ⟨⟨t, fun l ↦ (hspan l).1⟩, g, hg, fun l ↦ (hspan l).2⟩

theorem trim (h : Carries T) : Carries fun l ↦ trim (T l) := by
  obtain ⟨f, hf, hstart⟩ := (h.span fun c hc ↦ Role.of_blank hc).2
  obtain ⟨g, hg, hend⟩ := Form.exists_trimEnd (q := q) hf
  refine ⟨g, hg, fun l ↦ ?_⟩
  rw [← hend, ← hstart]
  rfl

theorem cutComment (h : Carries T) : Carries fun l ↦ (cutComment (T l)).1 := by
  obtain ⟨f, hf, rfl⟩ := h.eq_fill
  exact Form.cutCommentFrom_fill hf

end Text.Carries

section Cuts

variable {q : Quote} {T : Family q Text}

structure Cut.Carries (k : Family q Cut) : Prop where
  before : Text.Carries fun l ↦ (k l).before
  after : Text.Carries fun l ↦ (k l).after

theorem Form.IsCut.optional {n : Nesting} {find : Nesting → Text → Option Cut} {f : Form}
    (hn : n.place = .code) (h : IsCut q n find f) :
    Optional Cut.Carries fun l : q.Literal ↦ find n (f.fill l.text) := by
  obtain hnone | ⟨g, h, hg, hh, hsome⟩ := h
  · exact .inl hnone
  · have hg : g.OpenFrom {} := (Form.openFrom_congr hn).1 hg
    exact .inr ⟨fun l ↦ ⟨g.fill l.text, h.fill l.text⟩,
      ⟨⟨g, hg, fun _ ↦ rfl⟩, ⟨h, hh, fun _ ↦ rfl⟩⟩, hsome⟩

namespace Text.Carries

theorem cutFirst {needle : Text} (hneedle : Plain needle) (hne : needle ≠ []) (h : Carries T) :
    Optional Cut.Carries fun l ↦ cutFirst needle (T l) := by
  obtain ⟨f, hf, rfl⟩ := h.eq_fill
  exact (Form.isCut_cutFirst hneedle hne hf).optional rfl

theorem cutLast {needle : Text} (hneedle : Plain needle) (hne : needle ≠ []) (h : Carries T) :
    Optional Cut.Carries fun l ↦ cutLast needle (T l) := by
  obtain ⟨f, hf, rfl⟩ := h.eq_fill
  exact (Form.isCut_cutLast hneedle hne hf).optional rfl

theorem openGroup (h : Carries T) : Optional Cut.Carries fun l ↦ openGroup (T l) := by
  obtain ⟨f, hf, rfl⟩ := h.eq_fill
  exact (Form.isCut_openGroup hf).optional rfl

theorem closeGroup (h : Carries T) : Optional Cut.Carries fun l ↦ closeGroup (T l) := by
  obtain ⟨f, hf, rfl⟩ := h.eq_fill
  have hcode : ({} : Nesting).place = (Nesting.within .round).place := rfl
  exact (Form.isCut_closeGroup ((Form.openFrom_congr hcode).1 hf)).optional rfl

theorem segments {separator : Char} (hplain : Role.of separator = .plain) (h : Carries T) :
    Each Carries fun l ↦ segments separator (T l) := by
  obtain ⟨f, hf, rfl⟩ := h.eq_fill
  obtain ⟨g, hs, hg, hhs, hsegments⟩ := Form.segmentsFrom_fill (q := q) hplain hf
  refine ⟨(g :: hs).map fun f l ↦ f.fill l.text, ?_, fun l ↦ ?_⟩
  · intro a ha
    obtain ⟨f, hf, rfl⟩ := List.mem_map.1 ha
    have hopen : ∀ f ∈ g :: hs, Form.OpenFrom {} f := List.forall_mem_cons.2 ⟨hg, hhs⟩
    exact ⟨f, hopen f hf, fun _ ↦ rfl⟩
  · rw [List.map_map]
    exact hsegments l

end Text.Carries

end Cuts

namespace Family

variable {q : Quote} {α β : Type} {P : Family q α → Prop} {Q : Family q β → Prop}
  {x : Family q (List α)}

theorem Optional.map {x : Family q (Option α)} {g : Family q (α → β)} (h : Optional P x)
    (hg : ∀ a, P a → Q fun l ↦ g l (a l)) : Optional Q fun l ↦ (x l).map (g l) := by
  obtain hnone | ⟨a, ha, hsome⟩ := h
  · exact .inl fun l ↦ by simp only [hnone, Option.map_none]
  · exact .inr ⟨_, hg a ha, fun l ↦ by simp only [hsome, Option.map_some]⟩

theorem Same.exists_eq {x : Family q α} (h : Same x) : ∃ a, ∀ l, x l = a :=
  ⟨x default, fun l ↦ h l default⟩

theorem Same.cases {b : Family q Bool} (h : Same b) : (∀ l, b l = true) ∨ ∀ l, b l = false := by
  cases hb : b default with
  | true => exact .inl fun l ↦ (h l default).trans hb
  | false => exact .inr fun l ↦ (h l default).trans hb

theorem Optional.bind {x : Family q (Option α)} {g : α → Option β} (h : Optional P x)
    (hg : ∀ a, P a → Optional Q fun l ↦ g (a l)) : Optional Q fun l ↦ (x l).bind g := by
  obtain hnone | ⟨a, ha, hsome⟩ := h
  · exact .inl fun l ↦ by simp only [hnone, Option.bind_none]
  · simp only [hsome, Option.bind_some]
    exact hg a ha

theorem Optional.orElse {x y : Family q (Option α)} (hx : Optional P x) (hy : Optional P y) :
    Optional P fun l ↦ (x l <|> y l) := by
  obtain hnone | ⟨a, ha, hsome⟩ := hx
  · simp only [hnone]
    exact hy
  · simp only [hsome]
    exact .inr ⟨a, ha, fun _ ↦ rfl⟩

theorem Optional.getD {x : Family q (Option α)} {d : Family q α} (hx : Optional P x) (hd : P d) :
    P fun l ↦ (x l).getD (d l) := by
  obtain hnone | ⟨a, ha, hsome⟩ := hx
  · simp only [hnone, Option.getD_none]
    exact hd
  · simp only [hsome, Option.getD_some]
    exact ha

theorem Optional.filter {x : Family q (Option α)} {p : α → Bool} (h : Optional P x)
    (hp : ∀ a, P a → Same fun l ↦ p (a l)) : Optional P fun l ↦ (x l).filter p := by
  obtain hnone | ⟨a, ha, hsome⟩ := h
  · exact .inl fun l ↦ by simp only [hnone, Option.filter_none]
  · obtain htrue | hfalse := (hp a ha).cases
    · exact .inr ⟨a, ha, fun l ↦ by simp only [hsome, Option.filter_some, htrue, if_true]⟩
    · refine .inl fun l ↦ ?_
      simp only [hsome, Option.filter_some, hfalse, Bool.false_eq_true, if_false]

theorem Optional.toList {x : Family q (Option α)} (h : Optional P x) :
    Each P fun l ↦ (x l).toList := by
  obtain hnone | ⟨a, ha, hsome⟩ := h
  · exact ⟨[], nofun, fun l ↦ by simp only [hnone, Option.toList_none, List.map_nil]⟩
  · refine ⟨[a], by simpa using ha, fun l ↦ ?_⟩
    simp only [hsome, Option.toList_some, List.map_singleton]

theorem Each.nil : Each P fun _ ↦ [] := ⟨[], nofun, fun _ ↦ rfl⟩

theorem Each.cons {a : Family q α} (ha : P a) (h : Each P x) : Each P fun l ↦ a l :: x l := by
  obtain ⟨as, has, hx⟩ := h
  exact ⟨a :: as, List.forall_mem_cons.2 ⟨ha, has⟩, fun l ↦ by simp only [hx, List.map_cons]⟩

theorem Each.cases (h : Each P x) :
    (∀ l, x l = []) ∨ ∃ a y, P a ∧ Each P y ∧ ∀ l, x l = a l :: y l := by
  obtain ⟨_ | ⟨a, as⟩, has, hx⟩ := h
  · exact .inl hx
  · rw [List.forall_mem_cons] at has
    have htail : Each P fun l ↦ as.map fun b ↦ b l := ⟨as, has.2, fun _ ↦ rfl⟩
    exact .inr ⟨a, _, has.1, htail, hx⟩

theorem Each.head? (h : Each P x) : Optional P fun l ↦ (x l).head? := by
  obtain hnil | ⟨a, y, ha, -, hcons⟩ := h.cases
  · exact .inl fun l ↦ by simp only [hnil, List.head?_nil]
  · exact .inr ⟨a, ha, fun l ↦ by simp only [hcons, List.head?_cons]⟩

theorem Each.getElem? (h : Each P x) (i : Nat) : Optional P fun l ↦ (x l)[i]? := by
  obtain ⟨as, has, hx⟩ := h
  simp only [hx, List.getElem?_map]
  cases hi : as[i]? with
  | none => exact .inl fun _ ↦ rfl
  | some a => exact .inr ⟨a, has a (List.mem_of_getElem? hi), fun _ ↦ rfl⟩

theorem Each.append {y : Family q (List α)} (hx : Each P x) (hy : Each P y) :
    Each P fun l ↦ x l ++ y l := by
  obtain ⟨as, has, hx⟩ := hx
  obtain ⟨bs, hbs, hy⟩ := hy
  refine ⟨as ++ bs, fun a ha ↦ (List.mem_append.1 ha).elim (has a) (hbs a), fun l ↦ ?_⟩
  simp only [hx, hy, List.map_append]

theorem Each.const {as : List α} (h : ∀ a ∈ as, P fun _ ↦ a) : Each P fun _ ↦ as := by
  refine ⟨as.map fun a _ ↦ a, ?_, fun l ↦ ?_⟩
  · intro b hb
    obtain ⟨a, ha, rfl⟩ := List.mem_map.1 hb
    exact h a ha
  · rw [List.map_map]
    exact (List.map_id as).symm

theorem Each.same_length (h : Each P x) : Same fun l ↦ (x l).length := by
  obtain ⟨as, -, hx⟩ := h
  intro l l'
  simp only [hx, List.length_map]

theorem Each.same_isEmpty (h : Each P x) : Same fun l ↦ (x l).isEmpty := by
  intro l l'
  obtain hnil | ⟨a, y, -, -, hcons⟩ := h.cases
  · simp only [hnil]
  · simp only [hcons, List.isEmpty_cons]

theorem Each.induction {motive : Family q (List α) → Prop} (nil : motive fun _ ↦ [])
    (cons : ∀ a x, P a → Each P x → motive x → motive fun l ↦ a l :: x l) (h : Each P x) :
    motive x := by
  obtain ⟨as, has, hx⟩ := h
  obtain rfl : x = fun l ↦ as.map fun a ↦ a l := funext hx
  clear hx
  induction as with
  | nil => exact nil
  | cons a as ih =>
    rw [List.forall_mem_cons] at has
    exact cons a _ has.1 ⟨as, has.2, fun _ ↦ rfl⟩ (ih has.2)

theorem Each.map {g : α → β} (h : Each P x) (hg : ∀ a, P a → Q fun l ↦ g (a l)) :
    Each Q fun l ↦ (x l).map g := by
  obtain ⟨as, has, hx⟩ := h
  refine ⟨as.map fun a l ↦ g (a l), ?_, fun l ↦ ?_⟩
  · intro b hb
    obtain ⟨a, ha, rfl⟩ := List.mem_map.1 hb
    exact hg a (has a ha)
  · simp only [hx, List.map_map]
    rfl

theorem Each.mapIdx {g : Nat → α → β} (h : Each P x) (hg : ∀ i a, P a → Q fun l ↦ g i (a l)) :
    Each Q fun l ↦ (x l).mapIdx g := by
  obtain ⟨as, has, hx⟩ := h
  simp only [hx]
  clear hx
  induction as generalizing g with
  | nil => exact .nil
  | cons a as ih =>
    rw [List.forall_mem_cons] at has
    simp only [List.map_cons, List.mapIdx_cons]
    exact .cons (hg 0 a has.1) (ih (fun i ↦ hg (i + 1)) has.2)

theorem Each.filter {p : α → Bool} (h : Each P x) (hp : ∀ a, P a → Same fun l ↦ p (a l)) :
    Each P fun l ↦ (x l).filter p := by
  obtain ⟨as, has, hx⟩ := h
  refine ⟨as.filter fun a ↦ p (a default), fun a ha ↦ has a (List.mem_filter.1 ha).1, fun l ↦ ?_⟩
  simp only [hx, List.filter_map]
  refine congrArg _ (List.filter_congr fun a ha ↦ ?_)
  exact hp a (has a ha) l default

end Family

theorem Text.Carries.arguments {q : Quote} {T : Family q Text} (h : Carries T) :
    Each Carries fun l ↦ arguments (T l) := by
  have hpieces : Each Carries fun l ↦ Text.segments ',' (T l) := h.segments (by decide)
  refine (hpieces.map fun _ ha ↦ ha.trim).filter fun a ha l l' ↦ ?_
  exact congrArg not (ha.same_isEmpty l l')

section Groups

variable {q : Quote} {T : Family q Text}

structure Group.Carries (g : Family q Group) : Prop where
  gap : Text.Carries fun l ↦ (g l).gap
  inner : Text.Carries fun l ↦ (g l).inner
  sound : ∀ l, (g l).Sound

theorem Group.Carries.text {g : Family q Group} (h : Carries g) :
    Text.Carries fun l ↦ (g l).text := by
  have htext : ∀ l, (g l).text = (g l).gap ++ ('(' :: (g l).inner ++ [')']) := by
    intro l
    simp [Group.text]
  simp only [htext]
  exact h.gap.append (fun l ↦ (h.sound l).gap) h.inner.enclosed

theorem Text.Carries.nextGroup (h : Carries T) :
    Optional (fun x ↦ Group.Carries (fun l ↦ (x l).1) ∧ Carries fun l ↦ (x l).2)
      fun l ↦ nextGroup (T l) := by
  obtain hnone | ⟨k, hk, hopen⟩ := h.openGroup
  · exact .inl fun l ↦ by simp only [Text.nextGroup, hnone]
  obtain hnone | ⟨k', hk', hclose⟩ := hk.after.closeGroup
  · exact .inl fun l ↦ by simp only [Text.nextGroup, hopen, hnone]
  · have hgroup : ∀ l, Text.nextGroup (T l) =
        some (⟨(k l).before, (k' l).before⟩, (k' l).after) := by
      intro l
      simp only [Text.nextGroup, hopen, hclose]
    refine .inr ⟨fun l ↦ (⟨(k l).before, (k' l).before⟩, (k' l).after), ⟨?_, hk'.after⟩, hgroup⟩
    exact ⟨hk.before, hk'.before, fun l ↦ Text.nextGroup_sound (hgroup l)⟩

theorem Text.Carries.outline (h : Carries T) :
    Each Group.Carries (fun l ↦ (outline (T l)).groups) ∧ Carries fun l ↦ (outline (T l)).rest := by
  induction hk : (T default).length using Nat.strong_induction_on generalizing T with
  | h k ih =>
    obtain hnone | ⟨x, ⟨hg, hx⟩, hsome⟩ := h.nextGroup
    · simp only [Text.outline_none (hnone _)]
      exact ⟨⟨[], nofun, fun _ ↦ rfl⟩, h⟩
    · have hlt := Text.length_nextGroup_lt (hsome default)
      obtain ⟨⟨gs, hgs, hgroups⟩, hrest⟩ := ih _ (hk ▸ hlt) hx rfl
      simp only [Text.outline_some (hsome _)]
      refine ⟨⟨(fun l ↦ (x l).1) :: gs, List.forall_mem_cons.2 ⟨hg, hgs⟩, fun l ↦ ?_⟩, hrest⟩
      simp only [List.map_cons, hgroups]

theorem Text.Carries.same_isBlank (h : Carries T) : Same fun l ↦ isBlank (T l) := by
  refine h.same_of_no_mark fun t ht ↦ ?_
  exact List.all_eq_false.2 ⟨q.mark, ht, by simp [q.isBlank_mark]⟩

theorem Family.Each.same_head_isBlank {r : Family q Run} (h : Each Group.Carries r) :
    Same fun l ↦ (r l).head?.any (Text.isBlank ·.gap) := by
  obtain hnil | ⟨g, gs, hg, -, hcons⟩ := h.cases
  · intro l l'
    simp only [hnil]
  · intro l l'
    simp only [hcons, List.head?_cons, Option.any_some]
    exact hg.gap.same_isBlank l l'

theorem Family.Each.runs {x : Family q (List Group)} (h : Each Group.Carries x) :
    Each (Each Group.Carries) fun l ↦ runs (x l) := by
  refine h.induction (motive := fun x ↦ Each (Each Group.Carries) fun l ↦ CallChain.runs (x l)) .nil
    fun g x hg hx ih ↦ ?_
  have hsingle : Each Group.Carries fun l ↦ [g l] := .cons hg .nil
  obtain hnil | ⟨r, rs, hr, hrs, hcons⟩ := ih.cases
  · simp only [CallChain.runs, hnil]
    exact .cons hsingle .nil
  · obtain hblank | hblank := hr.same_head_isBlank.cases
    · simp only [CallChain.runs, hcons, hblank, if_true]
      exact .cons (.cons hg hr) hrs
    · simp only [CallChain.runs, hcons, hblank, Bool.false_eq_true, if_false]
      exact .cons hsingle (.cons hr hrs)

theorem Family.Each.runText {x : Family q (List Group)} (h : Each Group.Carries x) :
    Text.Carries (fun l ↦ Run.text (x l)) ∧ ∀ l, Text.Balanced (Run.text (x l)) := by
  refine h.induction
    (motive := fun x ↦ Text.Carries (fun l ↦ Run.text (x l)) ∧ ∀ l, Text.Balanced (Run.text (x l)))
    ⟨.const [], fun _ ↦ rfl⟩ fun g x hg _ ih ↦ ?_
  have hgroup : ∀ l, Text.Balanced (g l).text := fun l ↦ (hg.sound l).balanced
  exact ⟨hg.text.append hgroup ih.1, fun l ↦ (hgroup l).append (ih.2 l)⟩

theorem Family.Each.runsText {x : Family q (List Run)} (h : Each (Each Group.Carries) x) :
    Text.Carries (fun l ↦ (x l).flatMap Run.text) ∧
      ∀ l, Text.Balanced ((x l).flatMap Run.text) := by
  refine h.induction (motive := fun x ↦ Text.Carries (fun l ↦ (x l).flatMap Run.text) ∧
    ∀ l, Text.Balanced ((x l).flatMap Run.text)) ⟨.const [], fun _ ↦ rfl⟩ fun r x hr _ ih ↦ ?_
  obtain ⟨hrun, hbalanced⟩ := hr.runText
  exact ⟨hrun.append hbalanced ih.1, fun l ↦ (hbalanced l).append (ih.2 l)⟩

end Groups

section CallSites

variable {q : Quote} {T : Family q Text}

structure CallSite.Carries (s : Family q CallSite) : Prop where
  before : Text.Carries fun l ↦ (s l).before
  target : Optional Text.Carries fun l ↦ (s l).target
  function : ∃ f, ∀ l, (s l).function = f
  arguments : Text.Carries fun l ↦ (s l).arguments
  after : Text.Carries fun l ↦ (s l).after

theorem CallSite.Carries.behind {s : Family q CallSite} (h : Carries s) (hT : Text.Carries T)
    (hbalanced : ∀ l, Text.Balanced (T l)) : Carries fun l ↦ (s l).behind (T l) :=
  ⟨hT.append hbalanced h.before, h.target, h.function, h.arguments, h.after⟩

theorem Text.mark_not_functionName {t : Text} (h : q.mark ∈ t) : isFunctionName t = false := by
  rw [Bool.eq_false_iff]
  intro hname
  have hmem : q.mark ∈ (Flag.split t).2 := by
    rw [Flag.split.eq_def]
    split
    · cases q <;> simpa [Quote.mark] using h
    · cases q <;> simpa [Quote.mark] using h
    · exact h
  have hchar := isNameChar_of_isFunctionName hname q.mark hmem
  cases q <;> revert hchar <;> decide

theorem Text.Carries.same_attaches (h : Carries T) : Same fun l ↦ attaches (T l) := by
  obtain ⟨f, -, rfl⟩ := h.eq_fill
  intro l l'
  simp only [attaches, Form.getLast?_fill f l l', Form.lastWord_fill f l l']

theorem Text.Carries.functionName (h : Carries T) :
    (∀ l, ¬isFunctionName (T l)) ∨ ∃ f, isFunctionName f ∧ ∀ l, T l = f := by
  obtain ⟨f, hf⟩ | hmark := h.const_or_mark
  · by_cases hname : isFunctionName f
    · exact .inr ⟨f, hname, hf⟩
    · exact .inl fun l ↦ by rwa [hf]
  · exact .inl fun l ↦ by simp [mark_not_functionName (hmark l)]

theorem Family.Each.ofGroups? {x : Family q (List Group)} (h : Each Group.Carries x) :
    Optional CallSite.Carries fun l ↦ CallSite.ofGroups? (x l) := by
  obtain ⟨gs, hgs, hx⟩ := h
  simp only [hx]
  match gs with
  | [] | [_] | _ :: _ :: _ :: _ :: _ => exact .inl fun _ ↦ rfl
  | [f, a] =>
    simp only [List.forall_mem_cons] at hgs
    simp only [List.map_cons, List.map_nil, CallSite.ofGroups?]
    obtain hno | ⟨name, hname, hall⟩ := hgs.1.inner.trim.functionName
    · exact .inl fun l ↦ if_neg (hno l)
    · refine .inr ⟨fun l ↦ ⟨(f l).gap, none, name, (a l).inner, []⟩, ?_, fun l ↦ ?_⟩
      · exact ⟨hgs.1.gap, .inl fun _ ↦ rfl, ⟨name, fun _ ↦ rfl⟩, hgs.2.1.inner, .const []⟩
      · simp only [hall, if_pos hname]
  | [t, f, a] =>
    simp only [List.forall_mem_cons] at hgs
    simp only [List.map_cons, List.map_nil, CallSite.ofGroups?]
    obtain hno | ⟨name, hname, hall⟩ := hgs.2.1.inner.trim.functionName
    · exact .inl fun l ↦ if_neg (hno l)
    · refine .inr ⟨fun l ↦ ⟨(t l).gap, some (t l).inner, name, (a l).inner, []⟩, ?_, fun l ↦ ?_⟩
      · exact ⟨hgs.1.gap, .inr ⟨_, hgs.1.inner, fun _ ↦ rfl⟩, ⟨name, fun _ ↦ rfl⟩,
          hgs.2.2.1.inner, .const []⟩
      · simp only [hall, if_pos hname]

theorem Family.Each.ofRun? {x : Family q Run} (h : Each Group.Carries x) :
    Optional CallSite.Carries fun l ↦ CallSite.ofRun? (x l) := by
  obtain hnil | ⟨g, gs, hg, hgs, hcons⟩ := h.cases
  · exact .inl fun l ↦ by simp only [hnil, CallSite.ofRun?]
  · simp only [hcons, CallSite.ofRun?]
    obtain hattach | hattach := hg.gap.same_attaches.cases
    · simp only [hattach, if_true]
      exact hgs.ofGroups?.map fun s hs ↦ hs.behind hg.text fun l ↦ (hg.sound l).balanced
    · simp only [hattach, Bool.false_eq_true, if_false]
      exact (hgs.cons hg).ofGroups?

theorem Family.Each.ofRuns? {x : Family q (List Run)} {rest : Family q Text}
    (h : Each (Each Group.Carries) x) (hrest : Text.Carries rest) :
    Optional CallSite.Carries fun l ↦ CallSite.ofRuns? (rest l) (x l) := by
  refine h.induction
    (motive := fun x ↦ Optional CallSite.Carries fun l ↦ CallSite.ofRuns? (rest l) (x l))
    (.inl fun _ ↦ rfl) fun r rs hr hrs ih ↦ ?_
  obtain hnone | ⟨s, hs, hsome⟩ := ih
  · obtain ⟨htext, hbalanced⟩ := hrs.runsText
    simp only [CallSite.ofRuns?, hnone]
    refine hr.ofRun?.map fun s hs ↦ ?_
    exact ⟨hs.before, hs.target, hs.function, hs.arguments, htext.append hbalanced hrest⟩
  · obtain ⟨htext, hbalanced⟩ := hr.runText
    refine .inr ⟨_, hs.behind htext hbalanced, fun l ↦ ?_⟩
    simp only [CallSite.ofRuns?, hsome]

theorem Text.Carries.callSite? (h : Carries T) :
    Optional CallSite.Carries fun l ↦ callSite? (T l) :=
  h.outline.1.runs.ofRuns? h.outline.2

end CallSites

end CallChain
