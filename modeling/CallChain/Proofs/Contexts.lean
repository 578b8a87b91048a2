import CallChain.Proofs.WellFormed

namespace CallChain

namespace Text

/-- The function puts what it is given between two texts. -/
def Wraps (f : Text → Text) : Prop := ∃ before after, ∀ x, f x = before ++ x ++ after

namespace Wraps

variable {f g : Text → Text}

theorem id : Wraps fun x ↦ x := ⟨[], [], fun x ↦ by simp⟩

theorem comp (hf : Wraps f) (hg : Wraps g) : Wraps fun x ↦ f (g x) := by
  obtain ⟨b, a, hf⟩ := hf
  obtain ⟨b', a', hg⟩ := hg
  exact ⟨b ++ b', a' ++ a, fun x ↦ by simp [hf, hg]⟩

theorem between (before after : Text) : Wraps fun x ↦ before ++ x ++ after :=
  ⟨before, after, fun _ ↦ rfl⟩

theorem behind (before : Text) (hf : Wraps f) : Wraps fun x ↦ before ++ f x := by
  simpa using (between before []).comp hf

theorem ahead (hf : Wraps f) (after : Text) : Wraps fun x ↦ f x ++ after := by
  simpa using (between [] after).comp hf

theorem intercalate (separator : Text) (ts us : List Text) :
    Wraps fun x ↦ separator.intercalate (ts ++ x :: us) := by
  induction ts with
  | nil =>
    cases us with
    | nil => simpa using id
    | cons u us =>
      simpa [List.intercalate_cons_cons] using
        id.ahead (separator ++ separator.intercalate (u :: us))
  | cons t ts ih =>
    have hcons : ∀ x, separator.intercalate (t :: ts ++ x :: us) =
        t ++ separator ++ separator.intercalate (ts ++ x :: us) := by
      intro x
      obtain ⟨v, vs, hv⟩ := List.exists_cons_of_ne_nil
        (List.append_ne_nil_of_right_ne_nil ts (List.cons_ne_nil x us))
      rw [List.cons_append, hv, List.intercalate_cons_cons]
    simp only [hcons]
    exact ih.behind (t ++ separator)

end Wraps

end Text

namespace Piece

variable {p : Piece} {ts us : List Text}

def shows (i : Nat) : Piece → Bool
  | .text _ => false
  | .hole j => j = i
  | .all => true

theorem fill_of_not_shows (h : ¬p.shows ts.length) (x y : Text) :
    p.fill (ts ++ x :: us) = p.fill (ts ++ y :: us) := by
  cases p with
  | text t => rfl
  | hole j =>
    have hj : j ≠ ts.length := by simpa [shows] using h
    have hget : (ts ++ x :: us)[j]? = (ts ++ y :: us)[j]? := by grind
    rw [fill, fill, hget]
  | all => exact absurd rfl h

theorem wraps_fill (h : p.shows ts.length) : Text.Wraps fun x ↦ p.fill (ts ++ x :: us) := by
  cases p with
  | text t => simp [shows] at h
  | hole j =>
    have hj : j = ts.length := by simpa [shows] using h
    have hget : ∀ x : Text, fill (ts ++ x :: us) (.hole j) = x := by
      intro x
      simp [fill, hj]
    simpa only [hget] using Text.Wraps.id
  | all => exact .intercalate _ ts us

end Piece

namespace Template

variable {template : Template} {ts us : List Text}

theorem fill_cons (p : Piece) : fill (p :: template) ts = p.fill ts ++ template.fill ts :=
  List.flatMap_cons

theorem fill_of_not_shows (h : template.countP (Piece.shows ts.length) = 0) (x y : Text) :
    template.fill (ts ++ x :: us) = template.fill (ts ++ y :: us) := by
  induction template with
  | nil => rfl
  | cons p ps ih =>
    obtain ⟨hp, hps⟩ := List.forall_mem_cons.1 (List.countP_eq_zero.1 h)
    rw [fill_cons, fill_cons, Piece.fill_of_not_shows hp x y, ih (List.countP_eq_zero.2 hps)]

theorem wraps_fill (h : template.countP (Piece.shows ts.length) = 1) :
    Text.Wraps fun x ↦ template.fill (ts ++ x :: us) := by
  induction template with
  | nil => simp at h
  | cons p ps ih =>
    simp only [fill_cons]
    by_cases hp : p.shows ts.length
    · have hps : ps.countP (Piece.shows ts.length) = 0 := by
        rw [List.countP_cons_of_pos hp] at h
        omega
      simp only [fill_of_not_shows hps _ []]
      exact (Piece.wraps_fill hp).ahead _
    · rw [List.countP_cons_of_neg hp] at h
      simp only [Piece.fill_of_not_shows hp _ []]
      exact (ih h).behind _

end Template

namespace Builtin

/-- Every argument is shown once: each in a hole of its own, or all of them where their number is
not fixed. -/
def showsEach (b : Builtin) : Bool :=
  if b.signature.extra.isNone then
    (List.range b.signature.params.length).all fun i ↦ b.template.countP (Piece.shows i) = 1
  else b.template.count .all = 1 && b.template.all (·.isBelow 0)

theorem table_showsEach : table.all showsEach := by decide +kernel

theorem countP_shows {b : Builtin} (hb : b ∈ table) {i n : Nat} (hi : i < n)
    (hn : b.signature.extra = none → n = b.signature.params.length) :
    b.template.countP (Piece.shows i) = 1 := by
  have hshows := List.all_eq_true.1 table_showsEach b hb
  rw [showsEach] at hshows
  split at hshows
  · rename_i hextra
    have hlt : i < b.signature.params.length := by
      have := hn (Option.isNone_iff_eq_none.1 hextra)
      omega
    exact of_decide_eq_true (List.all_eq_true.1 hshows i (List.mem_range.2 hlt))
  · rw [Bool.and_eq_true, decide_eq_true_eq] at hshows
    rw [← hshows.1, List.count]
    refine List.countP_congr fun p hp ↦ ?_
    have hbelow := List.all_eq_true.1 hshows.2 p hp
    cases p with
    | text t => simp [Piece.shows]
    | hole j => simp [Piece.isBelow] at hbelow
    | all => simp [Piece.shows]

end Builtin

theorem Callee.wraps_python {callee : Callee} {arguments : List Expr} (h : callee.Fits arguments)
    (ts us : List Text) (hlength : (ts ++ us).length + 1 = arguments.length) :
    Text.Wraps fun x ↦ callee.python (ts ++ x :: us) := by
  cases callee with
  | named function =>
    exact (((Text.Wraps.intercalate ", ".toList ts us).behind ['(']).behind function).ahead [')']
  | builtin b =>
    have hb : b ∈ Builtin.table := mem_table_of_ofName h.lookup.symm
    have hlt : ts.length < arguments.length := by
      rw [List.length_append] at hlength
      omega
    exact Template.wraps_fill (Builtin.countP_shows hb hlt (h.count b rfl).2)

/-- A place right below an expression, with all that stands beside it. -/
inductive Frame
  | part (before after : List Expr)
  | argument (callee : Callee) (before after : List Expr)
  | target (value : Expr) (mode : BindMode)
  | value (target : Expr) (mode : BindMode)
  | start (stop step : Expr)
  | stop (start step : Expr)
  | step (start stop : Expr)

def Frame.plug (e : Expr) : Frame → Expr
  | .part before after => .concat (before ++ e :: after)
  | .argument callee before after => .call callee (before ++ e :: after)
  | .target v mode => .bind e v mode
  | .value t mode => .bind t e mode
  | .start j k => .range e j k
  | .stop i k => .range i e k
  | .step i j => .range i j e

/-- A place in an expression: the frames on the way down to it, outermost first. -/
abbrev Context := List Frame

def Context.plug (e : Expr) : Context → Expr
  | [] => e
  | f :: c => f.plug (Context.plug e c)

namespace Frame

theorem mem_nodes_plug {d e : Expr} (f : Frame) (h : d ∈ e.nodes) : d ∈ (f.plug e).nodes := by
  cases f with
  | part before after | argument callee before after => simp [plug, h]
  | target value mode | value target mode => simp [plug, h]
  | start stop step | stop start step | step start stop => simp [plug, h]

end Frame

namespace Expr

mutual

theorem exists_context {d : Expr} : ∀ e : Expr, d ∈ e.nodes → ∃ c : Context, e = c.plug d
  | .raw t, h => ⟨[], (List.mem_singleton.1 h).symm⟩
  | .concat parts, h => by
    rcases List.mem_cons.1 h with rfl | h
    · exact ⟨[], rfl⟩
    · obtain ⟨before, c, after, rfl⟩ := exists_context_all parts h
      exact ⟨.part before after :: c, rfl⟩
  | .call callee arguments, h => by
    rcases List.mem_cons.1 h with rfl | h
    · exact ⟨[], rfl⟩
    · obtain ⟨before, c, after, rfl⟩ := exists_context_all arguments h
      exact ⟨.argument callee before after :: c, rfl⟩
  | .bind target value mode, h => by
    rcases List.mem_cons.1 h with rfl | h
    · exact ⟨[], rfl⟩
    · rcases List.mem_append.1 h with h | h
      · obtain ⟨c, hc⟩ := exists_context target h
        exact ⟨.target value mode :: c, by rw [hc]; rfl⟩
      · obtain ⟨c, hc⟩ := exists_context value h
        exact ⟨.value target mode :: c, by rw [hc]; rfl⟩
  | .range start stop step, h => by
    rcases List.mem_cons.1 h with rfl | h
    · exact ⟨[], rfl⟩
    · rw [List.mem_append, List.mem_append] at h
      obtain (h | h) | h := h
      · obtain ⟨c, hc⟩ := exists_context start h
        exact ⟨.start stop step :: c, by rw [hc]; rfl⟩
      · obtain ⟨c, hc⟩ := exists_context stop h
        exact ⟨.stop start step :: c, by rw [hc]; rfl⟩
      · obtain ⟨c, hc⟩ := exists_context step h
        exact ⟨.step start stop :: c, by rw [hc]; rfl⟩

theorem exists_context_all {d : Expr} : ∀ es : List Expr, d ∈ nodesAll es →
    ∃ before, ∃ c : Context, ∃ after, es = before ++ c.plug d :: after
  | e :: es, h => by
    rcases List.mem_append.1 h with h | h
    · obtain ⟨c, hc⟩ := exists_context e h
      exact ⟨[], c, es, by rw [hc]; rfl⟩
    · obtain ⟨before, c, after, rfl⟩ := exists_context_all es h
      exact ⟨e :: before, c, after, rfl⟩

end

/-- The contexts of an expression reach every expression in it, and nothing else. -/
theorem mem_nodes_iff {d e : Expr} : d ∈ e.nodes ↔ ∃ c : Context, e = c.plug d := by
  refine ⟨exists_context e, ?_⟩
  rintro ⟨c, rfl⟩
  induction c with
  | nil => exact mem_nodes_self d
  | cons f c ih => exact f.mem_nodes_plug ih

/-- The calls in the expression have the arguments that they are written with. -/
def CallsFit (e : Expr) : Prop :=
  ∀ d ∈ e.nodes, ∀ callee arguments, d = .call callee arguments → callee.Fits arguments

end Expr

namespace Frame

theorem wraps_python {f : Frame} {d : Expr} (h : (f.plug d).CallsFit) (nested : Bool) :
    ∃ g, Text.Wraps g ∧ ∀ e, (f.plug e).python nested = g (e.python true) := by
  cases f with
  | part before after =>
    refine ⟨_, .between (Expr.pythonAll before).flatten (Expr.pythonAll after).flatten, fun e ↦ ?_⟩
    simp [plug, Expr.pythonAll_eq_map]
  | argument callee before after =>
    have hfits := h _ (Expr.mem_nodes_self _) callee _ rfl
    refine ⟨_, Callee.wraps_python hfits (before.map (Expr.python true))
      (after.map (Expr.python true)) ?_, fun e ↦ ?_⟩
    · simp only [List.length_append, List.length_map, List.length_cons]
      omega
    · simp [plug, Expr.pythonAll_eq_map]
  | target value mode =>
    have hbinding := Text.Wraps.id.ahead (mode.operator ++ value.python true)
    by_cases hparen : (nested && mode = .inline) = true
    · exact ⟨_, (hbinding.behind ['(']).ahead [')'], fun e ↦ by simp [plug, hparen]⟩
    · exact ⟨_, hbinding, fun e ↦ by simp [plug, hparen]⟩
  | value target mode =>
    have hbinding := Text.Wraps.id.behind (target.python true ++ mode.operator)
    by_cases hparen : (nested && mode = .inline) = true
    · exact ⟨_, (hbinding.behind ['(']).ahead [')'], fun e ↦ by simp [plug, hparen]⟩
    · exact ⟨_, hbinding, fun e ↦ by simp [plug, hparen]⟩
  | start stop step =>
    exact ⟨_, .between "range(".toList (", ".toList ++ stop.python true ++ ", ".toList ++
      step.python true ++ [')']), fun e ↦ by simp [plug]⟩
  | stop start step =>
    exact ⟨_, .between ("range(".toList ++ start.python true ++ ", ".toList) (", ".toList ++
      step.python true ++ [')']), fun e ↦ by simp [plug]⟩
  | step start stop =>
    exact ⟨_, .between ("range(".toList ++ start.python true ++ ", ".toList ++ stop.python true ++
      ", ".toList) [')'], fun e ↦ by simp [plug]⟩

end Frame

theorem Context.wraps_python {c : Context} {d : Expr} (h : (c.plug d).CallsFit) :
    ∃ g, Text.Wraps g ∧ ∀ e, (c.plug e).python true = g (e.python true) := by
  induction c with
  | nil => exact ⟨_, .id, fun _ ↦ rfl⟩
  | cons f c ih =>
    obtain ⟨g, hg, hplug⟩ := ih fun d hd ↦ h d (f.mem_nodes_plug hd)
    obtain ⟨g', hg', hplug'⟩ := Frame.wraps_python h true
    refine ⟨_, hg'.comp hg, fun e ↦ ?_⟩
    rw [← hplug]
    exact hplug' (Context.plug e c)

/-- Where a statement holds its expression. -/
inductive Slot
  | iterable (target : Text)
  | test (guard : Guard)
  | assigned (target : Text)
  | whole

namespace Slot

def plug (e : Expr) : Slot → Statement
  | .iterable target => .loop target e
  | .test guard => .guarded guard e
  | .assigned target => .assign target e
  | .whole => .expr e

def nests : Slot → Bool
  | .iterable _ | .assigned _ => true
  | .test _ | .whole => false

theorem wraps_python (slot : Slot) :
    ∃ g, Text.Wraps g ∧ ∀ e, (slot.plug e).python = g (e.python slot.nests) := by
  cases slot with
  | iterable target =>
    exact ⟨_, .between ("for ".toList ++ target ++ " in ".toList) [':'], fun e ↦ rfl⟩
  | test guard =>
    exact ⟨_, ((Text.Wraps.id.behind [' ']).behind guard.keyword).ahead [':'], fun e ↦ rfl⟩
  | assigned target =>
    exact ⟨_, Text.Wraps.id.behind (target ++ " = ".toList), fun e ↦ rfl⟩
  | whole => exact ⟨_, .id, fun e ↦ rfl⟩

/-- Below the root of the expression, and at it where the statement nests it, an expression is
written as a part of a larger one. -/
theorem wraps_python_plug {slot : Slot} {c : Context} {d : Expr} (h : (c.plug d).CallsFit)
    (hplace : slot.nests ∨ c ≠ []) :
    ∃ g, Text.Wraps g ∧ ∀ e, (slot.plug (c.plug e)).python = g (e.python true) := by
  obtain ⟨g, hg, hslot⟩ := slot.wraps_python
  cases c with
  | nil =>
    have hnests : slot.nests = true := hplace.resolve_right (absurd rfl)
    rw [hnests] at hslot
    exact ⟨g, hg, hslot⟩
  | cons f c =>
    obtain ⟨g₁, hg₁, hframe⟩ := Frame.wraps_python h slot.nests
    obtain ⟨g₂, hg₂, hcontext⟩ := Context.wraps_python (c := c) (d := d) fun d hd ↦
      h d (f.mem_nodes_plug hd)
    refine ⟨_, (hg.comp hg₁).comp hg₂, fun e ↦ ?_⟩
    rw [← hcontext, ← hframe, ← hslot]
    rfl

end Slot

end CallChain
