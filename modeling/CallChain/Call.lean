import CallChain.CallSite
import CallChain.Expr
import CallChain.Logged
import CallChain.Settings.File

namespace CallChain

/-- A name, an attribute or a subscript, which can stand on the left of `=`. -/
def Text.isAssignable (t : Text) : Bool :=
  let path := t.takeWhile fun c ↦ isIdentChar c || c = '.'
  let rest := t.dropWhile fun c ↦ isIdentChar c || c = '.'
  startsIdent path && !isConstant path && !isKeyword path &&
    (rest.isEmpty ||
      rest.head? = some '[' && rest.getLast? = some ']' && (outline rest).groups.isEmpty)

def Expr.isAssignable : Expr → Bool
  | .raw t => Text.isAssignable t
  | _ => false

structure Argument where
  text : Text
  value : Expr

namespace Callee

def paramCount : Callee → Nat
  | .builtin b => b.signature.params.length
  | .named _ => 0

def check (placeholder : Text) (arguments : List Text) : Callee → Except Fault Unit
  | .builtin b => b.signature.check b.name placeholder arguments
  | .named _ => .ok ()

/-- The arguments of a call: defaults take the place of placeholders and of what is left out. -/
def complete (placeholder : Text) (given : List Argument) (callee : Callee) : List Expr :=
  given.mapIdx (fun i a ↦
      if a.text = placeholder then .raw (callee.defaultAt i) else a.value) ++
    (List.range' given.length (callee.paramCount - given.length)).map fun i ↦
      .raw (callee.defaultAt i)

def event (arguments : Nat) : Callee → Event
  | .builtin b => .builtinCall b.name arguments
  | .named function => .namedCall function

end Callee

/-- What a call binds its result to. Without a flag that is the group in front of the function. -/
def bindTarget (flag : Option Flag) (leading : Option Argument) (arguments : List Expr) :
    Option Expr :=
  match flag with
  | some .bindFirst => arguments.head?.filter Expr.isAssignable
  | some .discard => none
  | none => (leading.map (·.value)).filter Expr.isAssignable

def Expr.ofCall (s : Settings) (mode : BindMode) (function : Text) (leading : Option Argument)
    (arguments : List Argument) : Logged Fault Expr := do
  let (flag, name) := Flag.split function
  let callee := Callee.ofName name
  let given := leading.toList ++ arguments
  .ofExcept (callee.check s.placeholder (given.map (·.text)))
  let values := callee.complete s.placeholder given
  .event (callee.event values.length)
  let call := Expr.call callee values
  return match bindTarget flag leading values with
    | some target => .bind target call mode
    | none => call

/-- Refuses an unbalanced text, or takes note of it. -/
def Settings.requireBalance (s : Settings) (text : Text) (defect : Imbalance → Defect) :
    Logged Fault Unit :=
  match Text.imbalance? text with
  | none => pure ()
  | some i =>
    if s.strictBrackets then .fail (.malformed (Text.trim text) (defect i))
    else .event (.unbalanced text (defect i))

namespace CallSite

def shape (site : CallSite) : Shape := if site.target.isSome then .assignment else .normal

def leading? (site : CallSite) : Option Text :=
  site.target.bind fun t ↦ Text.nonempty? (Text.trim t)

/-- A call with text around it is part of a larger expression and can only bind inline. -/
def bindMode (site : CallSite) (mode : BindMode) : BindMode :=
  if Text.isBlank site.before && Text.isBlank site.after then mode else .inline

theorem length_leading?_le {site : CallSite} {t : Text} (h : site.leading? = some t) :
    t.length ≤ (site.target.getD []).length := by
  rcases site with ⟨_, _ | target, _, _, _⟩
  · simp [leading?] at h
  · simp only [leading?, Option.bind_some, Text.nonempty?_eq_some_iff] at h
    rw [← h.1]
    exact Text.length_trim_le target

end CallSite

def Expr.leave (text : Text) : Logged Fault Expr := do
  .event (.classified .notACall)
  if Text.holds ")(".toList text then .event (.leftAsWritten text)
  return .raw text

/-- All calls of a text. The texts before and after a call, its target and its arguments are read
in turn. -/
def Expr.ofText (s : Settings) (mode : BindMode) (text : Text) : Logged Fault Expr := do
  s.requireBalance text .brackets
  match _h : Text.callSite? text with
  | none => Expr.leave text
  | some site =>
    .event (.classified site.shape)
    let leading ← site.leading?.attach.mapM fun ⟨t, _⟩ ↦
      Argument.mk t <$> Expr.ofText s .inline t
    s.requireBalance site.arguments .arguments
    let arguments ← (Text.arguments site.arguments).attach.mapM fun ⟨t, _⟩ ↦
      Argument.mk t <$> Expr.ofText s .inline t
    let call ← Expr.ofCall s (site.bindMode mode) site.function leading arguments
    let before ← (Text.nonempty? site.before).attach.mapM fun ⟨t, _⟩ ↦ Expr.ofText s .inline t
    let after ← (Text.nonempty? site.after).attach.mapM fun ⟨t, _⟩ ↦ Expr.ofText s .inline t
    return .joined (before.toList ++ [call] ++ after.toList)
termination_by text.length
decreasing_by
  all_goals
    have hs := Text.callSite?_size _h
    rw [CallSite.size] at hs
  · have := CallSite.length_leading?_le ‹_›
    omega
  · have := Text.length_le_of_mem_arguments ‹_›
    omega
  · have := congrArg List.length (Text.nonempty?_eq_some_iff.1 ‹_›).1
    omega
  · have := congrArg List.length (Text.nonempty?_eq_some_iff.1 ‹_›).1
    omega

namespace Expr

theorem ofText_of_none {s : Settings} {mode : BindMode} {text : Text}
    (h : Text.callSite? text = none) :
    ofText s mode text = s.requireBalance text .brackets >>= fun _ ↦ leave text := by
  rw [ofText]
  split
  · rfl
  · simp_all

theorem ofText_of_some {s : Settings} {mode : BindMode} {text : Text} {site : CallSite}
    (h : Text.callSite? text = some site) :
    ofText s mode text = do
      s.requireBalance text .brackets
      .event (.classified site.shape)
      let leading ← site.leading?.mapM fun t ↦ Argument.mk t <$> ofText s .inline t
      s.requireBalance site.arguments .arguments
      let arguments ← (Text.arguments site.arguments).mapM fun t ↦
        Argument.mk t <$> ofText s .inline t
      let call ← ofCall s (site.bindMode mode) site.function leading arguments
      let before ← (Text.nonempty? site.before).mapM (ofText s .inline)
      let after ← (Text.nonempty? site.after).mapM (ofText s .inline)
      return joined (before.toList ++ [call] ++ after.toList) := by
  rw [ofText]
  split
  · simp_all
  · rename_i site' h'
    cases h.symm.trans h'
    simp only [Logged.mapM_option_attach _ (ofText s .inline),
      Logged.mapM_option_attach _ fun t ↦ Argument.mk t <$> ofText s .inline t,
      Logged.mapM_list_attach _ fun t ↦ Argument.mk t <$> ofText s .inline t]

end Expr

end CallChain
