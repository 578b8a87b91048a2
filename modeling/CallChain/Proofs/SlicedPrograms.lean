import CallChain.Proofs.Descent
import CallChain.Proofs.SlicedValues
import CallChain.Proofs.Statements

namespace CallChain

/-- A computation that stops where a slice or an index fails. -/
abbrev Sliced (ε α : Type) := OptionT (Logged ε) α

namespace Sliced

variable {ε α β : Type}

def value (o : Option α) : Sliced ε α := OptionT.mk (pure o)

def lift (x : Logged ε α) : Sliced ε α := OptionT.lift x

@[simp] theorem value_some (a : α) : (value (some a) : Sliced ε α) = pure a := rfl

theorem lift_pure (a : α) : lift (pure a : Logged ε α) = pure a := OptionT.lift_pure a

theorem lift_bind (x : Logged ε α) (f : α → Logged ε β) :
    lift (x >>= f) = lift x >>= fun a ↦ lift (f a) :=
  OptionT.lift_bind x f

theorem lift_bind_congr {x : Logged ε α} {f g : α → Sliced ε β}
    (h : ∀ a, x.outcome = .ok a → f a = g a) :
    lift x >>= f = lift x >>= g := by
  rcases x with ⟨log, _ | a⟩
  · rfl
  · have hlog : ∀ k : α → Sliced ε β, (lift ⟨log, .ok a⟩ >>= k).run =
        ⟨log ++ [] ++ (k a).run.log, (k a).run.outcome⟩ := fun k ↦ rfl
    refine OptionT.ext ?_
    rw [hlog, hlog, h a rfl]

theorem lift_map (f : α → β) (x : Logged ε α) : lift (f <$> x) = f <$> lift x := by
  rw [map_eq_pure_bind, lift_bind, map_eq_pure_bind]
  simp only [lift_pure]

theorem value_attach_bind {o : Option α} {a : α} (h : o = some a)
    (f : {x // o = some x} → Sliced ε β) :
    value o.attach >>= f = f ⟨a, h⟩ := by
  subst h
  rfl

theorem lift_option_mapM {f : α → Logged ε β} {g : α → Sliced ε β} (o : Option α)
    (h : ∀ a ∈ o, g a = lift (f a)) : o.mapM g = lift (o.mapM f) := by
  cases o with
  | none => exact (lift_pure _).symm
  | some a => rw [Option.mapM_some, Option.mapM_some, h a rfl, lift_map]

theorem lift_mapM {f : α → Logged ε β} {g : α → Sliced ε β} (l : List α)
    (h : ∀ a ∈ l, g a = lift (f a)) : l.mapM g = lift (l.mapM f) := by
  induction l with
  | nil => exact (lift_pure _).symm
  | cons a l ih =>
    rw [List.forall_mem_cons] at h
    rw [List.mapM_cons, List.mapM_cons, h.1, ih h.2, lift_bind]
    simp only [lift_bind, lift_pure]

end Sliced

/-- The call of a function on arguments that are read already, with its defaults put in by
position. -/
def Expr.ofCallBySlices (s : Settings) (mode : BindMode) (function : Text)
    (leading : Option Argument) (arguments : List Argument) : Sliced Fault Expr := do
  let (flag, name) := Flag.split function
  let callee := Callee.ofName name
  let given := leading.toList ++ arguments
  let checked ← .value (callee.check? s.placeholder (given.map (·.text)))
  .lift (.ofExcept checked)
  let values ← .value (callee.complete? s.placeholder given)
  .lift (.event (callee.event values.length))
  let call := Expr.call callee values
  let target ← .value (bindTarget? flag leading values)
  return target.elim call (.bind · call mode)

/-- All calls of a text, found by offsets. -/
def Expr.ofTextBySlices (s : Settings) (mode : BindMode) (text : Text) : Sliced Fault Expr := do
  .lift (s.requireBalance text .brackets)
  match _h : Text.callSiteBySpans? text with
  | none => failure
  | some none => .lift (Expr.leave text)
  | some (some site) =>
    .lift (.event (.classified site.shape))
    let leading ← site.leading?.attach.mapM fun ⟨t, _⟩ ↦
      Argument.mk t <$> Expr.ofTextBySlices s .inline t
    let ⟨texts, _ha⟩ ← .value (Text.arguments? site.arguments).attach
    .lift (s.requireBalance site.arguments .arguments)
    let arguments ← texts.attach.mapM fun ⟨t, _⟩ ↦ Argument.mk t <$> Expr.ofTextBySlices s .inline t
    let call ← Expr.ofCallBySlices s (site.bindMode mode) site.function leading arguments
    let before ← (Text.nonempty? site.before).attach.mapM fun ⟨t, _⟩ ↦
      Expr.ofTextBySlices s .inline t
    let after ← (Text.nonempty? site.after).attach.mapM fun ⟨t, _⟩ ↦ Expr.ofTextBySlices s .inline t
    return .joined (before.toList ++ [call] ++ after.toList)
termination_by text.length
decreasing_by
  all_goals
    rw [Text.callSiteBySpans?_eq, Option.some_inj] at _h
    refine Text.ReadWithin.length_lt ⟨site, _h, ?_⟩
    simp only [CallSite.texts, List.mem_append, Option.mem_toList]
  · exact .inl (.inl (.inr ‹_›))
  · rw [Text.arguments?_eq, Option.some_inj] at _ha
    exact .inl (.inr (_ha ▸ ‹_›))
  · exact .inl (.inl (.inl ‹_›))
  · exact .inr ‹_›

namespace Expr

open Sliced

theorem ofCallBySlices_eq (s : Settings) (mode : BindMode) (function : Text)
    (leading : Option Argument) (arguments : List Argument) :
    ofCallBySlices s mode function leading arguments =
      .lift (ofCall s mode function leading arguments) := by
  rw [ofCallBySlices, ofCall]
  simp only [Callee.check?_eq, Callee.complete?_eq, bindTarget?_eq, value_some, pure_bind,
    lift_bind, lift_pure]
  cases bindTarget (Flag.split function).1 leading
      ((Callee.ofName (Flag.split function).2).complete s.placeholder
        (leading.toList ++ arguments)) with
  | none => rfl
  | some target => rfl

theorem ofTextBySlices_of_none {s : Settings} {mode : BindMode} {text : Text}
    (h : Text.callSite? text = none) :
    ofTextBySlices s mode text =
      .lift (s.requireBalance text .brackets) >>= fun _ ↦ .lift (leave text) := by
  have hsite := Text.callSiteBySpans?_eq text
  rw [h] at hsite
  rw [ofTextBySlices]
  split <;> simp_all

theorem ofTextBySlices_of_some {s : Settings} {mode : BindMode} {text : Text} {site : CallSite}
    (h : Text.callSite? text = some site) :
    ofTextBySlices s mode text = do
      .lift (s.requireBalance text .brackets)
      .lift (.event (.classified site.shape))
      let leading ← site.leading?.mapM fun t ↦ Argument.mk t <$> ofTextBySlices s .inline t
      .lift (s.requireBalance site.arguments .arguments)
      let arguments ← (Text.arguments site.arguments).mapM fun t ↦
        Argument.mk t <$> ofTextBySlices s .inline t
      let call ← ofCallBySlices s (site.bindMode mode) site.function leading arguments
      let before ← (Text.nonempty? site.before).mapM (ofTextBySlices s .inline)
      let after ← (Text.nonempty? site.after).mapM (ofTextBySlices s .inline)
      return joined (before.toList ++ [call] ++ after.toList) := by
  have hsite := Text.callSiteBySpans?_eq text
  rw [h] at hsite
  rw [ofTextBySlices]
  split
  · simp_all
  · simp_all
  · rename_i site' hsite'
    cases hsite.symm.trans hsite'
    simp only [value_attach_bind (Text.arguments?_eq site.arguments),
      Logged.mapM_option_attach _ (ofTextBySlices s .inline),
      Logged.mapM_option_attach _ fun t ↦ Argument.mk t <$> ofTextBySlices s .inline t,
      Logged.mapM_list_attach _ fun t ↦ Argument.mk t <$> ofTextBySlices s .inline t]

theorem ofTextBySlices_eq (s : Settings) (mode : BindMode) (text : Text) :
    ofTextBySlices s mode text = .lift (ofText s mode text) := by
  induction text using Text.wellFounded_readWithin.induction generalizing mode with
  | h text ih =>
    cases hsite : Text.callSite? text with
    | none => rw [ofTextBySlices_of_none hsite, ofText_of_none hsite, lift_bind]
    | some site =>
      have hread : ∀ u ∈ site.texts, ofTextBySlices s .inline u = .lift (ofText s .inline u) :=
        fun u hu ↦ ih u ⟨site, hsite, hu⟩ .inline
      have hargument : ∀ u ∈ site.texts, (Argument.mk u <$> ofTextBySlices s .inline u) =
          .lift (Argument.mk u <$> ofText s .inline u) := fun u hu ↦ by rw [hread u hu, lift_map]
      simp only [CallSite.texts, List.mem_append, Option.mem_toList] at hread hargument
      have hleading := lift_option_mapM site.leading? fun u hu ↦ hargument u (.inl (.inl (.inr hu)))
      have harguments :=
        lift_mapM (Text.arguments site.arguments) fun u hu ↦ hargument u (.inl (.inr hu))
      have hbefore :=
        lift_option_mapM (Text.nonempty? site.before) fun u hu ↦ hread u (.inl (.inl (.inl hu)))
      have hafter := lift_option_mapM (Text.nonempty? site.after) fun u hu ↦ hread u (.inr hu)
      rw [ofTextBySlices_of_some hsite, ofText_of_some hsite]
      simp only [hleading, harguments, hbefore, hafter, ofCallBySlices_eq, lift_bind, lift_pure]

end Expr

def Interval.ofTextBySlices? (t : Text) : Option (Option Interval) := do
  let k? ← Text.cutFirst? rangeMark 3 t
  k?.mapM fun k ↦ do
    let k'? ← Text.cutLast? stepMark 1 k.after
    let (stop, step) := match k'? with
      | some k' => (Text.trim k'.before, Text.trim k'.after)
      | none => (Text.trim k.after, [])
    return {
      start := (Text.nonempty? (Text.trim k.before)).getD ['0']
      stop
      step := (Text.nonempty? step).getD ['1'] }

theorem Interval.ofTextBySlices?_eq (t : Text) : ofTextBySlices? t = some (ofText? t) := by
  have hrange : Text.bytes rangeMark = 3 := rfl
  have hstep : Text.bytes stepMark = 1 := rfl
  simp only [ofTextBySlices?, ofText?, Text.cutFirst?_eq hrange, Text.cutLast?_eq hstep,
    Option.bind_eq_bind, Option.bind_some]
  cases Text.cutFirst rangeMark t with
  | none => rfl
  | some k => rfl

def Expr.ofIntervalBySlices (s : Settings) (t : Text) : Sliced Fault (Option Expr) := do
  match ← .value (Interval.ofTextBySlices? t) with
  | none => return none
  | some i =>
    if i.stop.isEmpty then .lift (.fail (.malformed t .endlessRange))
    else
      let start ← ofTextBySlices s .inline i.start
      let stop ← ofTextBySlices s .inline i.stop
      let step ← ofTextBySlices s .inline i.step
      return some (.range start stop step)

open Sliced in
theorem Expr.ofIntervalBySlices_eq (s : Settings) (t : Text) :
    ofIntervalBySlices s t = .lift (ofInterval? (ofText s .inline) t) := by
  simp only [ofIntervalBySlices, ofInterval?, Interval.ofTextBySlices?_eq, value_some, pure_bind,
    ofTextBySlices_eq]
  cases Interval.ofText? t with
  | none => exact (lift_pure _).symm
  | some i =>
    dsimp only
    split
    · rfl
    · simp only [lift_bind, lift_pure]

namespace Text

def loopPartsBySlices? (t : Text) : Option (Option (Text × Text)) :=
  match dropMark? (trim t) with
  | none => some none
  | some head => do
    let k? ← cutFirst? " in ".toList 4 head
    return k?.bind fun k ↦
      let target := trim k.before
      let iterable := trim k.after
      if isTargetList target && !iterable.isEmpty then some (target, iterable) else none

theorem loopPartsBySlices?_eq (t : Text) : loopPartsBySlices? t = some (loopParts? t) := by
  have hin : bytes " in ".toList = 4 := rfl
  rw [loopPartsBySlices?, loopParts?]
  cases dropMark? (trim t) with
  | none => rfl
  | some head =>
    dsimp only
    rw [cutFirst?_eq hin]
    cases cutFirst " in ".toList head with
    | none => rfl
    | some k => rfl

def assignmentBySlices? (code : Text) : Option (Option (Text × Text)) := do
  let k? ← cutFirst? "=".toList 1 code
  return k?.bind fun k ↦
    let target := trim k.before
    if k.after.head? = some '=' || k.before.getLast?.any (· ∈ "=!<>:+-*/%&|^@".toList) ||
        target.isEmpty then none
    else some (target, trim k.after)

theorem assignmentBySlices?_eq (code : Text) :
    assignmentBySlices? code = some (assignment? code) := by
  have hequals : bytes "=".toList = 1 := rfl
  rw [assignmentBySlices?, assignment?, cutFirst?_eq hequals]
  cases cutFirst "=".toList code with
  | none => rfl
  | some k => rfl

end Text

def Heading.ofCodeBySlices? (code : Text) : Option Heading := do
  let parts ← (Text.afterWord? "for".toList code).elim (some none) Text.loopPartsBySlices?
  let loop := parts.map fun p ↦ Heading.loop p.1 p.2
  return (loop <|> ofWhile? code <|> ofGuard? .ifTest code <|> ofGuard? .elifTest code <|>
    ofJump? code).getD .plain

theorem Heading.ofCodeBySlices?_eq (code : Text) : ofCodeBySlices? code = some (ofCode code) := by
  rw [ofCodeBySlices?, ofCode, ofLoop?]
  cases Text.afterWord? "for".toList code with
  | none => rfl
  | some rest =>
    rw [Option.elim_some, Text.loopPartsBySlices?_eq]
    rfl

namespace Statement

open Sliced

def ofPlainBySlices (s : Settings) (code : Text) : Sliced Fault Statement := do
  let value ← Expr.ofTextBySlices s .statement code
  if !value.isRaw then return .expr value
  else
    match ← .value (Text.assignmentBySlices? code) with
    | some (target, value) => .assign target <$> Expr.ofTextBySlices s .inline value
    | none => return .verbatim code

def ofLoopBySlices (s : Settings) (target iterable : Text) : Sliced Fault Statement := do
  match ← Expr.ofIntervalBySlices s iterable with
  | some range => return .loop target range
  | none => .loop target <$> Expr.ofTextBySlices s .inline iterable

def ofCodeBySlices (s : Settings) (code : Text) : Sliced Fault Statement := do
  match ← .value (Heading.ofCodeBySlices? code) with
  | .loop target iterable => ofLoopBySlices s target iterable
  | .guarded guard test => .guarded guard <$> Expr.ofTextBySlices s .inline test
  | .verbatim => return .verbatim code
  | .plain => ofPlainBySlices s code

theorem ofPlainBySlices_eq (s : Settings) (code : Text) :
    ofPlainBySlices s code = .lift (ofPlain s code) := by
  simp only [ofPlainBySlices, ofPlain, Expr.ofTextBySlices_eq, Text.assignmentBySlices?_eq,
    value_some, pure_bind, lift_bind]
  congr 1
  funext value
  split
  · exact (lift_pure _).symm
  · cases Text.assignment? code with
    | none => exact (lift_pure _).symm
    | some sides => exact (lift_map _ _).symm

theorem ofLoopBySlices_eq (s : Settings) (target iterable : Text) :
    ofLoopBySlices s target iterable = .lift (ofLoop s target iterable) := by
  simp only [ofLoopBySlices, ofLoop, Expr.ofIntervalBySlices_eq, Expr.ofTextBySlices_eq, lift_bind]
  congr 1
  funext range?
  cases range? with
  | none => exact (lift_map _ _).symm
  | some range => exact (lift_pure _).symm

theorem ofCodeBySlices_eq (s : Settings) (code : Text) :
    ofCodeBySlices s code = .lift (ofCode s code) := by
  rw [ofCodeBySlices, ofCode, Heading.ofCodeBySlices?_eq, value_some, pure_bind]
  cases Heading.ofCode code with
  | loop target iterable => exact ofLoopBySlices_eq s target iterable
  | guarded guard test =>
    dsimp only
    rw [Expr.ofTextBySlices_eq, lift_map]
  | verbatim => exact (lift_pure _).symm
  | plain => exact ofPlainBySlices_eq s code

end Statement

def SourceLine.ofRawBySlices? (number : Nat) (raw : Text) : Option SourceLine := do
  let (code, comment) ← Text.cutComment? raw
  return {
    number
    raw
    code := Text.trim code
    width := Text.leadingWidth raw
    comment := comment.map Text.trimEnd }

theorem SourceLine.ofRawBySlices?_eq (number : Nat) (raw : Text) :
    ofRawBySlices? number raw = some (ofRaw number raw) := by
  rw [ofRawBySlices?, Text.cutComment?_eq]
  rfl

namespace Sliced

variable {α β : Type}

def onLine (l : SourceLine) (x : Sliced Fault α) : Sliced LineFault α := OptionT.mk (x.run.onLine l)

theorem onLine_lift (l : SourceLine) (x : Logged Fault α) :
    onLine l (lift x) = lift (x.onLine l) := by
  rcases x with ⟨log, _ | a⟩
  · rfl
  · rfl

end Sliced

open Sliced

def SourceLine.codeLineBySlices (s : Settings) (layout : Layout) (l : SourceLine) :
    Sliced LineFault Line := do
  let level := (layout.enter l.width).level
  let statement ← onLine l (Statement.ofCodeBySlices s l.code)
  .lift (.event (.lineRead l.number level statement.kind))
  return ⟨level, statement, l.keptComment s⟩

theorem SourceLine.codeLineBySlices_eq (s : Settings) (layout : Layout) (l : SourceLine) :
    l.codeLineBySlices s layout = .lift (l.codeLine s layout) := by
  simp only [codeLineBySlices, codeLine, Statement.ofCodeBySlices_eq, onLine_lift, lift_bind,
    lift_pure]

namespace Program

/-- The lines are split up one by one, each when its turn comes. -/
def ofLinesBySlices (s : Settings) (layout : Layout) : List (Text × Nat) → Sliced LineFault Program
  | [] => return []
  | (raw, number) :: ls => do
    let l ← .value (SourceLine.ofRawBySlices? number raw)
    if l.code.isEmpty then List.cons (l.blankLine s layout) <$> ofLinesBySlices s layout ls
    else
      let line ← l.codeLineBySlices s layout
      List.cons line <$> ofLinesBySlices s (layout.after l.width l.code) ls

theorem ofLinesBySlices_eq (s : Settings) (layout : Layout) (ls : List (Text × Nat)) :
    ofLinesBySlices s layout ls =
      .lift (ofLines s layout (ls.map fun p ↦ SourceLine.ofRaw p.2 p.1)) := by
  induction ls generalizing layout with
  | nil => exact (lift_pure _).symm
  | cons p ls ih =>
    obtain ⟨raw, number⟩ := p
    simp only [ofLinesBySlices, SourceLine.ofRawBySlices?_eq, value_some, pure_bind, ih,
      SourceLine.codeLineBySlices_eq, List.map_cons, ofLines]
    split
    · exact (lift_map _ _).symm
    · simp only [lift_bind, lift_map]

def ofSourceBySlices (s : Settings) (source : Text) : Sliced LineFault Program :=
  ofLinesBySlices s {} ((Text.lines source).zipIdx 1)

theorem ofSourceBySlices_eq (s : Settings) (source : Text) :
    ofSourceBySlices s source = .lift (ofSource s source) :=
  ofLinesBySlices_eq s {} ((Text.lines source).zipIdx 1)

end Program

mutual

/-- An expression in Python, with templates filled by slices. -/
def Expr.pythonBySlices? (nested : Bool) : Expr → Option Text
  | .raw text => some text
  | .concat parts => do return (← Expr.pythonAllBySlices? parts).flatten
  | .call callee arguments => do callee.pythonBySlices? (← Expr.pythonAllBySlices? arguments)
  | .bind target value mode => do
    let binding :=
      (← target.pythonBySlices? true) ++ mode.operator ++ (← value.pythonBySlices? true)
    return if nested && mode = .inline then '(' :: binding ++ [')'] else binding
  | .range start stop step => do
    return "range(".toList ++ (← start.pythonBySlices? true) ++ ", ".toList ++
      (← stop.pythonBySlices? true) ++ ", ".toList ++ (← step.pythonBySlices? true) ++ [')']

def Expr.pythonAllBySlices? : List Expr → Option (List Text)
  | [] => some []
  | e :: es => do return (← e.pythonBySlices? true) :: (← Expr.pythonAllBySlices? es)

end

namespace Expr

variable {P : Text → Prop} {e : Expr}

theorem pythonAllBySlices?_eq {es : List Expr}
    (h : ∀ e ∈ es, e.pythonBySlices? true = some (e.python true)) :
    pythonAllBySlices? es = some (pythonAll es) := by
  induction es with
  | nil => rfl
  | cons e es ih =>
    rw [List.forall_mem_cons] at h
    rw [pythonAllBySlices?, h.1, ih h.2]
    rfl

/-- Only functions of the table are called, and their templates are filled as they are written. -/
theorem MadeOf.pythonBySlices?_eq (h : e.MadeOf P) (nested : Bool) :
    e.pythonBySlices? nested = some (e.python nested) := by
  induction h generalizing nested with
  | raw _ => rfl
  | concat _ ih =>
    rw [pythonBySlices?, pythonAllBySlices?_eq fun e he ↦ ih e he true]
    rfl
  | @call function arguments _ _ ih =>
    rw [pythonBySlices?, pythonAllBySlices?_eq fun e he ↦ ih e he true]
    exact Callee.pythonBySlices?_eq function (pythonAll arguments)
  | bind _ _ iht ihv =>
    rw [pythonBySlices?, iht, ihv]
    rfl
  | range _ _ _ ihstart ihstop ihstep =>
    rw [pythonBySlices?, ihstart, ihstop, ihstep]
    rfl

theorem pythonBySlices?_of_ofText {s : Settings} {mode : BindMode} {text : Text}
    (h : (ofText s mode text).outcome = .ok e) (nested : Bool) :
    e.pythonBySlices? nested = some (e.python nested) := by
  have hinherited : Text.Inherited fun _ ↦ True :=
    ⟨fun _ _ ↦ ⟨trivial, fun _ _ ↦ trivial, fun _ _ ↦ trivial, trivial⟩, fun _ _ ↦ trivial⟩
  exact (ofText_madeOf hinherited trivial trivial h).pythonBySlices?_eq nested

end Expr

def Statement.pythonBySlices? : Statement → Option Text
  | .blank => some []
  | .loop target iterable => do
    return "for ".toList ++ target ++ " in ".toList ++ (← iterable.pythonBySlices? true) ++ [':']
  | .guarded guard test => do return guard.keyword ++ ' ' :: (← test.pythonBySlices? false) ++ [':']
  | .assign target value => do return target ++ " = ".toList ++ (← value.pythonBySlices? true)
  | .expr value => value.pythonBySlices? false
  | .verbatim text => some text

theorem Statement.pythonBySlices?_eq {s : Settings} {code : Text} {st : Statement}
    (h : (ofCode s code).outcome = .ok st) : st.pythonBySlices? = some st.python := by
  rw [ofCode] at h
  cases hheading : Heading.ofCode code with
  | loop target iterable =>
    rw [hheading] at h
    obtain ⟨i, start, stop, step, -, hstart, hstop, hstep, rfl⟩ | ⟨e, he, rfl⟩ := ofLoop_ok h
    · rw [pythonBySlices?, Expr.pythonBySlices?, Expr.pythonBySlices?_of_ofText hstart,
        Expr.pythonBySlices?_of_ofText hstop, Expr.pythonBySlices?_of_ofText hstep]
      rfl
    · rw [pythonBySlices?, Expr.pythonBySlices?_of_ofText he]
      rfl
  | guarded guard test =>
    rw [hheading] at h
    obtain ⟨e, he, rfl⟩ := Logged.outcome_map_eq_ok.1 h
    rw [pythonBySlices?, Expr.pythonBySlices?_of_ofText he]
    rfl
  | verbatim =>
    rw [hheading] at h
    cases h
    rfl
  | plain =>
    rw [hheading] at h
    obtain ⟨e, he, rfl | rfl | ⟨target, value, e', -, hvalue, rfl⟩⟩ := ofPlain_ok h
    · exact Expr.pythonBySlices?_of_ofText he false
    · rfl
    · rw [pythonBySlices?, Expr.pythonBySlices?_of_ofText hvalue]
      rfl

def Line.pythonBySlices? (indentWidth : Nat) (l : Line) : Option Text :=
  if l.statement.isBlank && l.comment.isNone then some []
  else do
    return List.replicate (l.level * indentWidth) ' ' ++ (← l.statement.pythonBySlices?) ++
      l.commentText

theorem Line.pythonBySlices?_eq {s : Settings} {l : SourceLine} {line : Line} (h : line.IsRead s l)
    (indentWidth : Nat) : line.pythonBySlices? indentWidth = some (line.python indentWidth) := by
  have hstatement : line.statement.pythonBySlices? = some line.statement.python := by
    by_cases hcode : l.code = []
    · rw [h.blank hcode]
      rfl
    · exact Statement.pythonBySlices?_eq (h.code hcode)
  rw [pythonBySlices?, python, hstatement]
  split <;> rfl

def Program.pythonBySlices? (indentWidth : Nat) (p : Program) : Option Text := do
  return ['\n'].intercalate (← p.mapM (Line.pythonBySlices? indentWidth))

theorem Program.pythonBySlices?_eq {s : Settings} {source : Text} {p : Program}
    (h : (ofSource s source).outcome = .ok p) (indentWidth : Nat) :
    p.pythonBySlices? indentWidth = some (p.python indentWidth) := by
  have hlines : p.mapM (Line.pythonBySlices? indentWidth) =
      some (p.map (Line.python indentWidth)) := by
    have hread := ofLines_isRead h
    clear h
    generalize SourceLine.ofSource source = ls at hread
    induction hread with
    | nil => rfl
    | cons hline _ ih =>
      rw [List.mapM_cons, Line.pythonBySlices?_eq hline, ih]
      rfl
  rw [pythonBySlices?, hlines]
  rfl

/-- A source written in Python, with every slice and every index partial. -/
def compileBySlices (s : Settings) (source : Text) : Sliced LineFault Text := do
  let p ← Program.ofSourceBySlices s source
  .value (p.pythonBySlices? s.indentWidth)

/-- No slice and no index fails: with all of them partial, a source is translated to what it is
translated to, with the same faults and the same log. A slice is there if its ends are in order, in
the text and between two characters. -/
theorem compileBySlices_run (s : Settings) (source : Text) :
    (compileBySlices s source).run = some <$> compile s source ∧
      ∀ (start stop : Nat) (t : Text), (Text.slice? start stop t).isSome ↔
        start ≤ stop ∧ stop ≤ Text.bytes t ∧ Text.IsBoundary start t ∧ Text.IsBoundary stop t := by
  refine ⟨?_, fun _ _ _ ↦ Text.slice?_isSome_iff⟩
  have hpython : (lift (Program.ofSource s source) >>=
      fun p ↦ value (p.pythonBySlices? s.indentWidth)) =
      lift (compile s source) := by
    rw [compile, lift_map, map_eq_pure_bind]
    refine lift_bind_congr fun p hp ↦ ?_
    rw [Program.pythonBySlices?_eq hp, value_some]
  rw [compileBySlices, Program.ofSourceBySlices_eq, hpython, lift, OptionT.run_lift,
    map_eq_pure_bind]

end CallChain
