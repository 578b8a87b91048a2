import CallChain.Proofs.CarriedWords

namespace CallChain

open Family

variable {q : Quote} {α β : Type} {P : Family q α → Prop} {Q : Family q β → Prop}

/-- The computations fail for all literals, with faults of one kind, or for none. -/
def Family.Runs (P : Family q α → Prop) (x : Family q (Logged Fault α)) : Prop :=
  (∃ kind, ∀ l, ∃ fault, (x l).outcome = .error fault ∧ fault.kind = kind) ∨
    ∃ a, P a ∧ ∀ l, (x l).outcome = .ok (a l)

namespace Family

theorem Runs.pure {a : Family q α} (h : P a) : Runs P fun l ↦ Pure.pure (a l) :=
  .inr ⟨a, h, fun _ ↦ rfl⟩

theorem Runs.bind {x : Family q (Logged Fault α)} {f : Family q (α → Logged Fault β)}
    (hx : Runs P x) (hf : ∀ a, P a → Runs Q fun l ↦ f l (a l)) : Runs Q fun l ↦ x l >>= f l := by
  obtain ⟨kind, herror⟩ | ⟨a, ha, hok⟩ := hx
  · refine .inl ⟨kind, fun l ↦ ?_⟩
    obtain ⟨fault, hfault, hkind⟩ := herror l
    exact ⟨fault, Logged.outcome_bind_eq_error.2 (.inl hfault), hkind⟩
  · have hout : ∀ l, (x l >>= f l).outcome = (f l (a l)).outcome := by
      intro l
      rw [Logged.outcome_bind, hok]
      rfl
    simp only [Runs, hout]
    exact hf a ha

theorem Runs.map {x : Family q (Logged Fault α)} {g : Family q (α → β)} (hx : Runs P x)
    (hg : ∀ a, P a → Q fun l ↦ g l (a l)) : Runs Q fun l ↦ g l <$> x l := by
  simp only [map_eq_pure_bind]
  exact hx.bind fun a ha ↦ .pure (hg a ha)

theorem Runs.event (e : Family q Event) : Runs (fun _ ↦ True) fun l ↦ Logged.event (e l) :=
  .inr ⟨fun _ ↦ (), trivial, fun _ ↦ rfl⟩

theorem Optional.mapM {x : Family q (Option α)} {f : α → Logged Fault β} (h : Optional P x)
    (hf : ∀ a, P a → x default = some (a default) → Runs Q fun l ↦ f (a l)) :
    Runs (Optional Q) fun l ↦ (x l).mapM f := by
  obtain hnone | ⟨a, ha, hsome⟩ := h
  · simp only [hnone, Option.mapM_none]
    exact .pure (.inl fun _ ↦ rfl)
  · simp only [hsome, Option.mapM_some]
    exact (hf a ha (hsome default)).map fun b hb ↦ .inr ⟨b, hb, fun _ ↦ rfl⟩

theorem Each.mapM {x : Family q (List α)} {f : α → Logged Fault β} (h : Each P x)
    (hf : ∀ a, P a → a default ∈ x default → Runs Q fun l ↦ f (a l)) :
    Runs (Each Q) fun l ↦ (x l).mapM f := by
  obtain ⟨as, has, hx⟩ := h
  rw [hx] at hf
  simp only [hx]
  clear hx
  induction as with
  | nil => exact .pure .nil
  | cons a as ih =>
    rw [List.forall_mem_cons] at has
    simp only [List.map_cons, List.mapM_cons]
    refine (hf a has.1 (by simp)).bind fun b hb ↦ ?_
    refine (ih (fun a' ha' hmem ↦ hf a' ha' (List.mem_cons_of_mem _ hmem)) has.2).bind
      fun bs hbs ↦ ?_
    exact .pure (.cons hb hbs)

end Family

/-- The expressions are built the same for all literals, from texts that carry them. -/
inductive Expr.Carries : Family q Expr → Prop
  | raw {text : Family q Text} : Text.Carries text → Carries fun l ↦ .raw (text l)
  | concat {parts : List (Family q Expr)} :
      (∀ e ∈ parts, Carries e) → Carries fun l ↦ .concat (parts.map fun e ↦ e l)
  | call (callee : Callee) {arguments : List (Family q Expr)} :
      (∀ e ∈ arguments, Carries e) →
      Carries fun l ↦ .call callee (arguments.map fun e ↦ e l)
  | bind (mode : BindMode) {target value : Family q Expr} :
      Carries target → Carries value → Carries fun l ↦ .bind (target l) (value l) mode
  | range {start stop step : Family q Expr} :
      Carries start → Carries stop → Carries step →
      Carries fun l ↦ .range (start l) (stop l) (step l)

namespace Expr.Carries

variable {e : Family q Expr}

theorem const (t : Text) : Carries fun _ : q.Literal ↦ .raw t := .raw (.const t)

theorem same_isEmpty (h : Carries e) : Same fun l ↦ (e l).isEmpty := by
  cases h with
  | raw ht => exact ht.same_isEmpty
  | _ => exact fun _ _ ↦ rfl

theorem same_isRaw (h : Carries e) : Same fun l ↦ (e l).isRaw := by
  cases h <;> exact fun _ _ ↦ rfl

theorem same_isAssignable (h : Carries e) : Same fun l ↦ (e l).isAssignable := by
  cases h with
  | raw ht => exact ht.same_isAssignable
  | _ => exact fun _ _ ↦ rfl

theorem joined {parts : Family q (List Expr)} (h : Each Carries parts) :
    Carries fun l ↦ Expr.joined (parts l) := by
  have hfilter : Each Carries fun l ↦ (parts l).filter (!·.isEmpty) :=
    h.filter fun e he l l' ↦ congrArg not (he.same_isEmpty l l')
  obtain ⟨es, hes, hparts⟩ := hfilter
  simp only [Expr.joined, hparts]
  rcases es with _ | ⟨e, _ | ⟨e', es⟩⟩
  · exact .const []
  · exact hes e (by simp)
  · exact .concat hes

theorem call_each {arguments : Family q (List Expr)} (h : Each Carries arguments)
    (callee : Callee) : Carries fun l ↦ .call callee (arguments l) := by
  obtain ⟨es, hes, hall⟩ := h
  simp only [hall]
  exact .call callee hes

theorem bound (mode : BindMode) {target : Family q (Option Expr)} (ht : Optional Carries target)
    (h : Carries e) : Carries fun l ↦ Expr.bound mode (e l) (target l) := by
  obtain hnone | ⟨t, ht, hsome⟩ := ht
  · simp only [hnone]
    exact h
  · simp only [hsome]
    exact .bind mode ht h

end Expr.Carries

structure Argument.Carries (a : Family q Argument) : Prop where
  text : Text.Carries fun l ↦ (a l).text
  value : Expr.Carries fun l ↦ (a l).value

section Checks

variable {T : Family q Text} {given : Family q (List Text)}

theorem Text.Carries.requireBalance (h : Carries T) (defect : Imbalance → Defect) :
    Runs (fun _ ↦ True) fun l ↦ ({} : Settings).requireBalance (T l) defect := by
  by_cases hb : Balanced (T default)
  · refine .inr ⟨fun _ ↦ (), trivial, fun l ↦ Settings.requireBalance_ok_iff.2 fun _ ↦ ?_⟩
    exact (h.balanced_iff_of l default).2 hb
  · refine .inl ⟨"MalformedCallError".toList, fun l ↦ ?_⟩
    have hno : ¬Balanced (T l) := mt (h.balanced_iff_of l default).1 hb
    obtain ⟨i, hi⟩ := Option.ne_none_iff_exists'.1 hno
    exact ⟨_, Settings.requireBalance_error_iff.2 ⟨rfl, i, hi, rfl⟩, rfl⟩

theorem Text.Carries.argumentFault {placeholder : Text} (hp : Plain placeholder) (h : Carries T)
    (s : Signature) (function : Text) (position : Nat) :
    Optional (fun fault ↦ ∀ l, (fault l).kind = "TypeError".toList)
      fun l ↦ s.argumentFault function placeholder position (T l) := by
  obtain htilde | htilde := (h.same_eq hp).cases
  · exact .inl fun l ↦ if_pos (of_decide_eq_true (htilde l))
  obtain ⟨found, hfound⟩ := h.same_typeOf.exists_eq
  simp only [Signature.argumentFault, if_neg (of_decide_eq_false (htilde _)), hfound]
  split
  · exact .inl fun _ ↦ rfl
  · exact .inr ⟨_, fun _ ↦ rfl, fun _ ↦ rfl⟩

theorem Family.Each.findFault {placeholder : Text} (hp : Text.Plain placeholder)
    (h : Each Text.Carries given) (s : Signature) (function : Text) (position : Nat) :
    Optional (fun fault ↦ ∀ l, (fault l).kind = "TypeError".toList) fun l ↦
      ((given l).zipIdx position).findSome? fun (a, i) ↦
        s.argumentFault function placeholder i a := by
  obtain ⟨as, has, hx⟩ := h
  simp only [hx]
  clear hx
  induction as generalizing position with
  | nil => exact .inl fun _ ↦ rfl
  | cons a as ih =>
    rw [List.forall_mem_cons] at has
    simp only [List.map_cons, List.zipIdx_cons, List.findSome?_cons]
    obtain hnone | ⟨fault, hkind, hsome⟩ := has.1.argumentFault hp s function position
    · simp only [hnone]
      exact ih (position + 1) has.2
    · simp only [hsome]
      exact .inr ⟨fault, hkind, fun _ ↦ rfl⟩

theorem Family.Each.check (h : Each Text.Carries given) (callee : Callee) :
    Runs (fun _ ↦ True) fun l ↦ Logged.ofExcept (callee.check ['~'] (given l)) := by
  cases callee with
  | named function => exact .inr ⟨fun _ ↦ (), trivial, fun _ ↦ rfl⟩
  | builtin b =>
    have hp : Text.Plain ['~'] := by decide
    obtain ⟨length, hlength⟩ := h.same_length.exists_eq
    simp only [Callee.check, Signature.check, hlength]
    split
    · exact .inl ⟨"ArityError".toList, fun _ ↦ ⟨_, rfl, rfl⟩⟩
    · obtain hnone | ⟨fault, hkind, hsome⟩ := h.findFault hp b.signature b.name 0
      · simp only [hnone]
        exact .inr ⟨fun _ ↦ (), trivial, fun _ ↦ rfl⟩
      · simp only [hsome]
        exact .inl ⟨"TypeError".toList, fun l ↦ ⟨fault l, rfl, hkind l⟩⟩

end Checks

section Calls

variable {given arguments : Family q (List Argument)} {leading : Family q (Option Argument)}

theorem Family.Each.complete (h : Each Argument.Carries given) (callee : Callee) :
    Each Expr.Carries fun l ↦ callee.complete ['~'] (given l) := by
  obtain ⟨length, hlength⟩ := h.same_length.exists_eq
  simp only [Callee.complete, hlength]
  refine .append (h.mapIdx fun i a ha ↦ ?_) (.const ?_)
  · obtain htilde | htilde := (ha.text.same_eq (t := ['~']) (by decide)).cases
    · simp only [if_pos (of_decide_eq_true (htilde _))]
      exact .const _
    · simp only [if_neg (of_decide_eq_false (htilde _))]
      exact ha.value
  · intro e he
    obtain ⟨i, -, rfl⟩ := List.mem_map.1 he
    exact .const _

theorem Family.Each.bindTarget {values : Family q (List Expr)} (h : Each Expr.Carries values)
    (hl : Optional Argument.Carries leading) (flag : Option Flag) :
    Optional Expr.Carries fun l ↦ bindTarget flag (leading l) (values l) := by
  match flag with
  | some .bindFirst => exact h.head?.filter fun e he ↦ he.same_isAssignable
  | some .discard => exact .inl fun _ ↦ rfl
  | none => exact (hl.map fun a ha ↦ ha.value).filter fun e he ↦ he.same_isAssignable

theorem Family.Each.ofCall (h : Each Argument.Carries arguments)
    (hl : Optional Argument.Carries leading) (mode : BindMode) (function : Text) :
    Runs Expr.Carries fun l ↦ Expr.ofCall {} mode function (leading l) (arguments l) := by
  have hgiven := hl.toList.append h
  have hvalues := hgiven.complete (.ofName (Flag.split function).2)
  refine .bind ((hgiven.map fun a ha ↦ ha.text).check _) fun _ _ ↦ ?_
  refine .bind (.event _) fun _ _ ↦ .pure ?_
  exact .bound mode (hvalues.bindTarget hl (Flag.split function).1) (.call_each hvalues _)

end Calls

theorem CallSite.Carries.same_bindMode {site : Family q CallSite} (h : Carries site)
    (mode : BindMode) : Same fun l ↦ (site l).bindMode mode := by
  intro l l'
  simp only [bindMode, h.before.same_isBlank l l', h.after.same_isBlank l l']

theorem Text.Carries.ofText_of_none {T : Family q Text} (h : Carries T)
    (hnone : Text.callSite? (T default) = none) (mode : BindMode) :
    Runs Expr.Carries fun l ↦ Expr.ofText {} mode (T l) := by
  have hall : ∀ l, Text.callSite? (T l) = none := by
    obtain hall | ⟨site, -, hsome⟩ := h.callSite?
    · exact hall
    · cases hnone.symm.trans (hsome default)
  simp only [Expr.ofText_of_none (hall _)]
  refine (h.requireBalance _).bind fun _ _ ↦ ?_
  exact .inr ⟨fun l ↦ .raw (T l), .raw h, fun l ↦ Expr.leave_outcome (T l)⟩

theorem Text.Carries.argument {T : Family q Text} (h : Carries T)
    (hread : Runs Expr.Carries fun l ↦ Expr.ofText {} .inline (T l)) :
    Runs Argument.Carries fun l ↦ Argument.mk (T l) <$> Expr.ofText {} .inline (T l) :=
  hread.map fun _ he ↦ ⟨h, he⟩

/-- Reading takes the same course for all literals. -/
theorem Text.Carries.ofText {T : Family q Text} (h : Carries T) (mode : BindMode) :
    Runs Expr.Carries fun l ↦ Expr.ofText {} mode (T l) := by
  -- the texts that are read for the empty literal are those read for all others, with it put in
  induction ht : T default using Expr.text_induction generalizing T mode with
  | leave t hnone => exact h.ofText_of_none (ht ▸ hnone) mode
  | call t site' hsite ihbefore ihtarget iharguments =>
    subst ht
    obtain hall | ⟨site, hcarries, hsome⟩ := h.callSite?
    · cases (hall default).symm.trans hsite
    cases hsite.symm.trans (hsome default)
    obtain ⟨function, hfunction⟩ := hcarries.function
    obtain ⟨bindMode, hmode⟩ := (hcarries.same_bindMode mode).exists_eq
    have hleading : Runs (Optional Argument.Carries) fun l ↦
        (site l).leading?.mapM fun t ↦ Argument.mk t <$> Expr.ofText {} .inline t :=
      hcarries.leading?.mapM fun u hu hmem ↦ hu.argument (ihtarget _ hmem hu .inline rfl)
    have harguments : Runs (Each Argument.Carries) fun l ↦
        (Text.arguments (site l).arguments).mapM fun t ↦
          Argument.mk t <$> Expr.ofText {} .inline t :=
      hcarries.arguments.arguments.mapM fun u hu hmem ↦
        hu.argument (iharguments _ hmem hu .inline rfl)
    have hbefore : Runs (Optional Expr.Carries) fun l ↦
        (Text.nonempty? (site l).before).mapM (Expr.ofText {} .inline) := by
      refine hcarries.before.nonempty?.mapM fun u hu hmem ↦ ihbefore hu .inline ?_
      exact (Text.nonempty?_eq_some_iff.1 hmem).1.symm
    have hafter : Runs (Optional Expr.Carries) fun l ↦
        (Text.nonempty? (site l).after).mapM (Expr.ofText {} .inline) := by
      refine hcarries.after.nonempty?.mapM fun u hu hmem ↦ hu.ofText_of_none ?_ .inline
      rw [← (Text.nonempty?_eq_some_iff.1 hmem).1]
      exact Text.callSite?_after (hsome default)
    simp only [Expr.ofText_of_some (hsome _), hfunction, hmode]
    refine (h.requireBalance _).bind fun _ _ ↦ .bind (.event _) fun _ _ ↦ ?_
    refine hleading.bind fun leading hl ↦ ?_
    refine (hcarries.arguments.requireBalance _).bind fun _ _ ↦ ?_
    refine harguments.bind fun arguments ha ↦ ?_
    refine (ha.ofCall hl bindMode function).bind fun call hcall ↦ ?_
    refine hbefore.bind fun before hb ↦ hafter.bind fun after ha ↦ .pure ?_
    exact .joined ((hb.toList.append (.cons hcall .nil)).append ha.toList)

/-- The texts are those of a form, wherever its places for the literal are. -/
def Text.Filled (T : Family q Text) : Prop := ∃ f : Form, ∀ l, T l = f.fill l.text

namespace Text.Filled

variable {T T' : Family q Text} {ts : Family q (List Text)}

theorem const (t : Text) : Filled fun _ : q.Literal ↦ t :=
  ⟨t.map some, fun l ↦ (Form.fill_map_some l.text t).symm⟩

theorem append (h : Filled T) (h' : Filled T') : Filled fun l ↦ T l ++ T' l := by
  obtain ⟨f, hf⟩ := h
  obtain ⟨g, hg⟩ := h'
  refine ⟨f ++ g, fun l ↦ ?_⟩
  simp only [Form.fill_append, hf, hg]

theorem flatten (h : Each Filled ts) : Filled fun l ↦ (ts l).flatten := by
  refine h.induction (motive := fun ts ↦ Filled fun l ↦ (ts l).flatten) (.const [])
    fun T ts hT _ ih ↦ ?_
  exact hT.append ih

theorem intercalate (separator : Text) (h : Each Filled ts) :
    Filled fun l ↦ separator.intercalate (ts l) := by
  refine h.induction (motive := fun ts ↦ Filled fun l ↦ separator.intercalate (ts l)) (.const [])
    fun T ts hT hts ih ↦ ?_
  obtain hnil | ⟨T', ts', -, -, hcons⟩ := hts.cases
  · simp only [hnil, List.intercalate_singleton]
    exact hT
  · simp only [hcons] at ih ⊢
    simp only [List.intercalate_cons_cons]
    exact (hT.append (.const separator)).append ih

theorem exists_pieces (h : Filled T) :
    ∃ pieces ≠ [], ∀ l, T l = l.contents.intercalate pieces := by
  obtain ⟨f, hf⟩ := h
  have hpieces : ∃ p ps, ∀ l : q.Literal, f.fill l.text = l.contents.intercalate (p :: ps) := by
    clear hf
    induction f with
    | nil => exact ⟨[], [], fun _ ↦ rfl⟩
    | cons o f ih =>
      obtain ⟨p, ps, hfill⟩ := ih
      have hcons : ∀ c (l : q.Literal), l.contents.intercalate ((c :: p) :: ps) =
          c :: l.contents.intercalate (p :: ps) := by
        intro c l
        cases ps <;> simp [List.intercalate_cons_cons]
      cases o with
      | none =>
        refine ⟨[q.mark], (q.mark :: p) :: ps, fun l ↦ ?_⟩
        rw [List.intercalate_cons_cons, hcons, Form.fill_none, hfill, Quote.Literal.text]
        simp
      | some c =>
        refine ⟨c :: p, ps, fun l ↦ ?_⟩
        rw [hcons, Form.fill_some, hfill]
  obtain ⟨p, ps, hfill⟩ := hpieces
  exact ⟨p :: ps, by simp, fun l ↦ (hf l).trans (hfill l)⟩

end Text.Filled

theorem Text.Carries.filled {T : Family q Text} (h : Carries T) : Filled T := by
  obtain ⟨f, -, hfill⟩ := h
  exact ⟨f, hfill⟩

section Python

variable {arguments : Family q (List Text)} {e : Family q Expr}

theorem Family.Each.pieceFill (h : Each Text.Filled arguments) (piece : Piece) :
    Text.Filled fun l ↦ piece.fill (arguments l) := by
  cases piece with
  | text t => exact .const t
  | hole i => exact (h.getElem? i).getD (.const noValue)
  | all => exact .intercalate _ h

theorem Family.Each.templateFill (h : Each Text.Filled arguments) (template : Template) :
    Text.Filled fun l ↦ template.fill (arguments l) := by
  induction template with
  | nil => exact .const []
  | cons piece template ih => exact (h.pieceFill piece).append ih

theorem Family.Each.calleePython (h : Each Text.Filled arguments) (callee : Callee) :
    Text.Filled fun l ↦ callee.python (arguments l) := by
  cases callee with
  | builtin b => exact h.templateFill b.template
  | named function =>
    have hlist := (Text.Filled.const ['(']).append (.intercalate ", ".toList h)
    exact ((Text.Filled.const function).append hlist).append (.const [')'])

theorem Expr.pythonAll_filled {es : List (Family q Expr)}
    (h : ∀ e ∈ es, Text.Filled fun l ↦ (e l).python true) :
    Each Text.Filled fun l ↦ pythonAll (es.map fun e ↦ e l) := by
  have heach : Each (fun e ↦ Text.Filled fun l ↦ (e l).python true) fun l ↦ es.map fun e ↦ e l :=
    ⟨es, h, fun _ ↦ rfl⟩
  simp only [pythonAll_eq_map]
  exact heach.map fun _ he ↦ he

theorem Expr.Carries.python (h : Carries e) (nested : Bool) :
    Text.Filled fun l ↦ (e l).python nested := by
  induction h generalizing nested with
  | raw ht => exact ht.filled
  | concat _ ih => exact .flatten (pythonAll_filled fun e he ↦ ih e he true)
  | call callee _ ih => exact (pythonAll_filled fun e he ↦ ih e he true).calleePython callee
  | @bind mode target value _ _ iht ihv =>
    have hbinding := ((iht true).append (.const mode.operator)).append (ihv true)
    simp only [python_bind]
    split
    · exact ((Text.Filled.const ['(']).append hbinding).append (.const [')'])
    · exact hbinding
  | range _ _ _ iha ihb ihc =>
    simp only [python_range]
    have hopen := Text.Filled.const (q := q) "range(".toList
    have hstart := (hopen.append (iha true)).append (.const ", ".toList)
    have hstop := (hstart.append (ihb true)).append (.const ", ".toList)
    exact (hstop.append (ihc true)).append (.const [')'])

end Python

/-- The statements are written as the texts of a form. -/
def Statement.Filled (st : Family q Statement) : Prop := Text.Filled fun l ↦ (st l).python

namespace Text.Carries

variable {T iterable : Family q Text}

theorem ofInterval? (h : Carries T) :
    Runs (Optional Expr.Carries) fun l ↦ Expr.ofInterval? (Expr.ofText {} .inline) (T l) := by
  obtain hnone | ⟨i, hi, hsome⟩ := h.interval?
  · simp only [Expr.ofInterval?, hnone]
    exact .pure (.inl fun _ ↦ rfl)
  obtain hempty | hempty := hi.stop.same_isEmpty.cases
  · simp only [Expr.ofInterval?, hsome, hempty, if_true]
    exact .inl ⟨"MalformedCallError".toList, fun _ ↦ ⟨_, rfl, rfl⟩⟩
  · simp only [Expr.ofInterval?, hsome, hempty, Bool.false_eq_true, if_false]
    refine (hi.start.ofText .inline).bind fun start hstart ↦ ?_
    refine (hi.stop.ofText .inline).bind fun stop hstop ↦ ?_
    refine (hi.step.ofText .inline).bind fun step hstep ↦ .pure ?_
    exact .inr ⟨_, .range hstart hstop hstep, fun _ ↦ rfl⟩

theorem ofLoop (target : Text) (h : Carries iterable) :
    Runs Statement.Filled fun l ↦ Statement.ofLoop {} target (iterable l) := by
  have hloop : ∀ e : Family q Expr, Expr.Carries e →
      Statement.Filled fun l ↦ .loop target (e l) := by
    intro e he
    have hhead := Filled.const (q := q) ("for ".toList ++ target ++ " in ".toList)
    exact (hhead.append (he.python true)).append (.const [':'])
  refine h.ofInterval?.bind fun range hrange ↦ ?_
  obtain hnone | ⟨e, he, hsome⟩ := hrange
  · simp only [hnone]
    exact (h.ofText .inline).map hloop
  · simp only [hsome]
    exact .pure (hloop e he)

theorem ofPlain (h : Carries T) : Runs Statement.Filled fun l ↦ Statement.ofPlain {} (T l) := by
  refine (h.ofText .statement).bind fun value hvalue ↦ ?_
  obtain hraw | hraw := hvalue.same_isRaw.cases
  · obtain hnone | ⟨sides, ⟨htarget, hside⟩, hsome⟩ := h.assignment?
    · simp only [hraw, hnone]
      exact .pure h.filled
    · simp only [hraw, hsome]
      refine (hside.ofText .inline).map fun e he ↦ ?_
      exact (htarget.filled.append (.const " = ".toList)).append (he.python true)
  · simp only [hraw]
    exact .pure (hvalue.python false)

theorem ofCode (h : Carries T) : Runs Statement.Filled fun l ↦ Statement.ofCode {} (T l) := by
  obtain ⟨heading, hheading⟩ : ∃ heading : Family q Heading,
      ∀ l, Heading.ofCode (T l) = heading l := ⟨_, fun _ ↦ rfl⟩
  have hcarries : Heading.Carries heading := funext hheading ▸ h.heading
  simp only [Statement.ofCode, hheading]
  clear hheading
  cases hcarries with
  | loop target hiterable => exact hiterable.ofLoop target
  | guarded guard htest =>
    refine (htest.ofText .inline).map fun e he ↦ ?_
    have hhead := Filled.const (q := q) guard.keyword
    exact (hhead.append ((Filled.const [' ']).append (he.python false))).append (.const [':'])
  | verbatim => exact .pure h.filled
  | plain => exact h.ofPlain

end Text.Carries

theorem Text.carries_between {u : Text} (hu : (({} : Nesting).after u).inString = false)
    (v : Text) : Carries fun l : q.Literal ↦ u ++ l.text ++ v := by
  have hcode : (({} : Nesting).after u).place = .code := by simpa [Nesting.inString] using hu
  refine ⟨u.map some ++ none :: v.map some, ?_, fun l ↦ ?_⟩
  · refine (Form.openFrom_append (default : q.Literal)).2 ⟨Form.openFrom_map_some u {}, ?_⟩
    rw [Form.fill_map_some]
    exact ⟨hcode, Form.openFrom_map_some v _⟩
  · simp

/-- What a string literal holds makes no difference to how a line with it is read: all such lines
are refused, for faults of one kind, or all are written with the contents pasted between the same
texts. -/
theorem compile_string_contents {u v : Text} (hu : (({} : Nesting).after u).inString = false)
    (hlu : '\n' ∉ u) (hlv : '\n' ∉ v) :
    (∃ kind, ∀ l : q.Literal, ∃ f, (compile {} (u ++ l.text ++ v)).outcome = .error f ∧
      f.fault.kind = kind) ∨
    ∃ pieces ≠ [], ∀ l : q.Literal,
      (compile {} (u ++ l.text ++ v)).outcome = .ok (l.contents.intercalate pieces) := by
  have hline : ∀ l : q.Literal, '\n' ∉ u ++ l.text ++ v := by
    intro l
    have hmark : '\n' ≠ q.mark := by cases q <;> decide
    simp [hlu, hlv, Quote.Literal.text, l.no_newline, hmark]
  have hne : ∀ l : q.Literal, u ++ l.text ++ v ≠ [] := by
    intro l
    simp [Quote.Literal.text]
  have hcode := (Text.carries_between (q := q) hu v).cutComment.trim
  simp only [compile_line (hline _) (hne _)]
  obtain hempty | hempty := hcode.same_isEmpty.cases
  · right
    refine ⟨[[]], by simp, fun l ↦ if_pos (List.isEmpty_iff.1 (hempty l))⟩
  · have hsome : ∀ l : q.Literal, Text.trim (Text.cutComment (u ++ l.text ++ v)).1 ≠ [] := by
      intro l h
      rw [← List.isEmpty_iff, hempty l] at h
      contradiction
    simp only [if_neg (hsome _)]
    obtain ⟨kind, herror⟩ | ⟨st, hst, hok⟩ := hcode.ofCode
    · left
      refine ⟨kind, fun l ↦ ?_⟩
      obtain ⟨fault, hfault, hkind⟩ := herror l
      simp only [hfault]
      exact ⟨_, rfl, hkind⟩
    · right
      obtain ⟨pieces, hpieces, hall⟩ := Text.Filled.exists_pieces hst
      refine ⟨pieces, hpieces, fun l ↦ ?_⟩
      simp only [hok, ← hall]
      rfl

theorem compile_string_contents_argument :
    (({} : Nesting).after "y = (print)('a, (b', ".toList).inString = false ∧
    '\n' ∉ "y = (print)('a, (b', ".toList ∧ '\n' ∉ ") # done".toList ∧
    ∃ pieces ≠ [], ∀ l : Quote.double.Literal,
      (compile {} ("y = (print)('a, (b', ".toList ++ l.text ++ ") # done".toList)).outcome =
        .ok (l.contents.intercalate pieces) := by
  refine ⟨by decide, by decide, by decide, ?_⟩
  refine (compile_string_contents (by decide) (by decide) (by decide)).resolve_left ?_
  rintro ⟨kind, herror⟩
  obtain ⟨f, hf, -⟩ := herror default
  have hok : (compile {} ("y = (print)('a, (b', ".toList ++ (default : Quote.double.Literal).text ++
      ") # done".toList)).outcome = .ok "y = print('a, (b', \"\")".toList := by
    decide +kernel
  cases hf.symm.trans hok

end CallChain
