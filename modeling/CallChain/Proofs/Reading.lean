import CallChain.Call
import CallChain.Proofs.CallSites
import CallChain.Proofs.Cuts
import Mathlib.Data.List.Forall2

namespace CallChain

namespace Logged

variable {ε α β : Type} {x : Logged ε α} {f : α → Logged ε β}

theorem outcome_bind_eq_ok {b : β} :
    (x >>= f).outcome = .ok b ↔ ∃ a, x.outcome = .ok a ∧ (f a).outcome = .ok b := by
  rcases x with ⟨log, e | a⟩
  · simp [bind_error]
  · simp [bind_ok]

theorem outcome_bind_eq_error {e : ε} :
    (x >>= f).outcome = .error e ↔
      x.outcome = .error e ∨ ∃ a, x.outcome = .ok a ∧ (f a).outcome = .error e := by
  rcases x with ⟨log, e' | a⟩
  · simp [bind_error]
  · simp [bind_ok]

theorem outcome_map_eq_ok {g : α → β} {b : β} :
    (g <$> x).outcome = .ok b ↔ ∃ a, x.outcome = .ok a ∧ g a = b := by
  rw [map_eq_pure_bind, outcome_bind_eq_ok]
  simp

theorem outcome_map_eq_error {g : α → β} {e : ε} :
    (g <$> x).outcome = .error e ↔ x.outcome = .error e := by
  rw [map_eq_pure_bind, outcome_bind_eq_error]
  simp

theorem outcome_mapM_eq_ok {l : List α} {bs : List β} :
    (l.mapM f).outcome = .ok bs ↔ List.Forall₂ (fun a b ↦ (f a).outcome = .ok b) l bs := by
  induction l generalizing bs with
  | nil => simp [eq_comm]
  | cons a l ih =>
    rw [List.mapM_cons, outcome_bind_eq_ok, List.forall₂_cons_left_iff]
    simp only [outcome_bind_eq_ok, ih, outcome_pure, Except.ok.injEq]
    constructor
    · rintro ⟨b, hb, bs', hbs, rfl⟩
      exact ⟨b, bs', hb, hbs, rfl⟩
    · rintro ⟨b, bs', hb, hbs, rfl⟩
      exact ⟨b, hb, bs', hbs, rfl⟩

theorem exists_of_outcome_mapM_eq_error {l : List α} {e : ε} (h : (l.mapM f).outcome = .error e) :
    ∃ a ∈ l, (f a).outcome = .error e := by
  induction l with
  | nil => simp at h
  | cons a l ih =>
    rw [List.mapM_cons, outcome_bind_eq_error] at h
    obtain h | ⟨b, -, h⟩ := h
    · exact ⟨a, by simp, h⟩
    · rw [outcome_bind_eq_error] at h
      obtain h | ⟨bs, -, h⟩ := h
      · obtain ⟨a', ha', h⟩ := ih h
        exact ⟨a', by simp [ha'], h⟩
      · simp at h

theorem outcome_option_mapM_eq_ok {o : Option α} {b : Option β} :
    (o.mapM f).outcome = .ok b ↔
      List.Forall₂ (fun a b ↦ (f a).outcome = .ok b) o.toList b.toList := by
  cases o with
  | none => cases b <;> simp [Option.mapM_none]
  | some a =>
    rw [Option.mapM_some, outcome_map_eq_ok]
    cases b <;> simp

theorem exists_of_outcome_option_mapM_eq_error {o : Option α} {e : ε}
    (h : (o.mapM f).outcome = .error e) : ∃ a ∈ o, (f a).outcome = .error e := by
  cases o with
  | none => simp [Option.mapM_none] at h
  | some a =>
    rw [Option.mapM_some, outcome_map_eq_error] at h
    exact ⟨a, rfl, h⟩

theorem mapM_congr {g : α → Logged ε β} {l : List α} (h : ∀ a ∈ l, f a = g a) :
    l.mapM f = l.mapM g := by
  induction l with
  | nil => rfl
  | cons a l ih =>
    rw [List.mapM_cons, List.mapM_cons, h a (by simp), ih fun b hb ↦ h b (by simp [hb])]

theorem option_mapM_congr {g : α → Logged ε β} {o : Option α} (h : ∀ a ∈ o, f a = g a) :
    o.mapM f = o.mapM g := by
  cases o with
  | none => rfl
  | some a => rw [Option.mapM_some, Option.mapM_some, h a rfl]

end Logged

namespace Settings

variable {s : Settings} {t : Text} {defect : Imbalance → Defect}

theorem requireBalance_ok_iff :
    (s.requireBalance t defect).outcome = .ok () ↔ (s.strictBrackets → Text.Balanced t) := by
  rw [requireBalance]
  split
  · rename_i h
    simp [Text.Balanced, h]
  · rename_i i h
    cases hs : s.strictBrackets <;> simp [Text.Balanced, h, Logged.fail, Logged.event]

theorem requireBalance_of_balanced (h : Text.Balanced t) :
    (s.requireBalance t defect).outcome = .ok () :=
  requireBalance_ok_iff.2 fun _ ↦ h

theorem requireBalance_error_iff {fault : Fault} :
    (s.requireBalance t defect).outcome = .error fault ↔
      s.strictBrackets ∧ ∃ i, Text.imbalance? t = some i ∧
        fault = .malformed (Text.trim t) (defect i) := by
  rw [requireBalance]
  split
  · rename_i h
    simp [h]
  · rename_i i h
    cases hs : s.strictBrackets <;> simp [h, Logged.fail, Logged.event, eq_comm]

end Settings

theorem Text.leading?_balanced {t u : Text} {site : CallSite} (h : Text.callSite? t = some site)
    (hu : site.leading? = some u) : Text.Balanced u := by
  obtain ⟨target, htarget, hu⟩ := Option.bind_eq_some_iff.1 hu
  obtain ⟨rfl, -⟩ := Text.nonempty?_eq_some_iff.1 hu
  exact Text.balanced_trim.2 ((Text.callSite?_balanced h).2.1 target htarget)

/-- The call of a call site, read by itself: first its target, then its arguments. -/
def CallSite.read (s : Settings) (mode : BindMode) (site : CallSite) : Logged Fault Expr := do
  let leading ← site.leading?.mapM fun t ↦ Argument.mk t <$> Expr.ofText s .inline t
  s.requireBalance site.arguments .arguments
  let arguments ← (Text.arguments site.arguments).mapM fun t ↦
    Argument.mk t <$> Expr.ofText s .inline t
  Expr.ofCall s mode site.function leading arguments

namespace Expr

variable {s : Settings} {mode : BindMode} {text : Text} {site : CallSite} {e : Expr}

theorem ofText_of_site (h : Text.callSite? text = some site) :
    ofText s mode text = do
      s.requireBalance text .brackets
      .event (.classified site.shape)
      let call ← site.read s (site.bindMode mode)
      let before ← (Text.nonempty? site.before).mapM (ofText s .inline)
      let after ← (Text.nonempty? site.after).mapM (ofText s .inline)
      return joined (before.toList ++ [call] ++ after.toList) := by
  rw [ofText_of_some h]
  simp only [CallSite.read, bind_assoc]

/-- The texts that a text is read by: what stands before its call, the target and the arguments.
Nothing is left to read after the call. -/
theorem text_induction {motive : Text → Prop}
    (leave : ∀ t, Text.callSite? t = none → motive t)
    (call : ∀ t site, Text.callSite? t = some site → motive site.before →
      (∀ u, site.leading? = some u → motive u) →
      (∀ a ∈ Text.arguments site.arguments, motive a) → motive t)
    (t : Text) : motive t := by
  match h : Text.callSite? t with
  | none => exact leave t h
  | some site =>
    have hs : site.before.length + (site.target.getD []).length + site.arguments.length +
        site.after.length + 4 ≤ t.length := Text.callSite?_size h
    refine call t site h ?_ ?_ ?_
    · exact text_induction leave call site.before
    · intro u hu
      have := CallSite.length_leading?_le hu
      exact text_induction leave call u
    · intro a ha
      have := Text.length_le_of_mem_arguments ha
      exact text_induction leave call a
termination_by t.length
decreasing_by all_goals omega

theorem leave_outcome (text : Text) : (leave text).outcome = .ok (.raw text) := by
  rw [leave]
  split <;> rfl

theorem ofText_ok_iff_of_none (h : Text.callSite? text = none) :
    (ofText s mode text).outcome = .ok e ↔
      (s.strictBrackets → Text.Balanced text) ∧ e = .raw text := by
  rw [ofText_of_none h, Logged.outcome_bind_eq_ok]
  simp only [leave_outcome, Except.ok.injEq]
  constructor
  · rintro ⟨⟨⟩, hb, rfl⟩
    exact ⟨Settings.requireBalance_ok_iff.1 hb, rfl⟩
  · rintro ⟨hb, rfl⟩
    exact ⟨(), Settings.requireBalance_ok_iff.2 hb, rfl⟩

theorem ofText_nil (s : Settings) (mode : BindMode) :
    (ofText s mode []).outcome = .ok (.raw []) :=
  (ofText_ok_iff_of_none (Text.callSite?_of_nextGroup rfl)).2 ⟨fun _ ↦ rfl, rfl⟩

theorem joined_append (es es' : List Expr) {e : Expr} (h : e.isEmpty) :
    joined (es ++ e :: es') = joined (es ++ es') := by
  simp [joined, h]

theorem read_nonempty_iff {t : Text} {part : Option Expr} :
    ((Text.nonempty? t).mapM (ofText s .inline)).outcome = .ok part ↔
      ∃ e, (ofText s .inline t).outcome = .ok e ∧ part = if t.isEmpty then none else some e := by
  rw [Logged.outcome_option_mapM_eq_ok, Text.nonempty?]
  cases t with
  | nil => cases part <;> simp [ofText_nil]
  | cons c t => cases part <;> simp

theorem joined_nonempty {t : Text} (h : (ofText s .inline t).outcome = .ok e)
    (es es' : List Expr) :
    joined (es ++ (if t.isEmpty then none else some e).toList ++ es') =
      joined (es ++ e :: es') := by
  cases t with
  | nil =>
    rw [ofText_nil, Except.ok.injEq] at h
    subst h
    simp [joined_append es es' (e := .raw []) rfl]
  | cons c t => simp

theorem joined_around {t u : Text} {before after : Expr}
    (ht : (ofText s .inline t).outcome = .ok before)
    (hu : (ofText s .inline u).outcome = .ok after) (call : Expr) :
    joined ((if t.isEmpty then none else some before).toList ++ [call] ++
      (if u.isEmpty then none else some after).toList) = joined [before, call, after] := by
  have hafter := joined_nonempty hu ((if t.isEmpty then none else some before).toList ++ [call]) []
  have hbefore := joined_nonempty ht [] [call, after]
  rw [List.append_nil] at hafter
  rw [hafter, List.append_assoc]
  exact hbefore

theorem ofText_ok_iff (h : Text.callSite? text = some site) :
    (ofText s mode text).outcome = .ok e ↔
      (s.strictBrackets → Text.Balanced text) ∧ ∃ before call,
        (site.read s (site.bindMode mode)).outcome = .ok call ∧
        (ofText s .inline site.before).outcome = .ok before ∧
        e = joined [before, call, .raw site.after] := by
  have hnone := Text.callSite?_after h
  rw [ofText_of_site h]
  simp only [Logged.outcome_bind_eq_ok, read_nonempty_iff, Logged.outcome_pure, Except.ok.injEq]
  constructor
  · rintro ⟨⟨⟩, hb, -, -, call, hcall, -, ⟨before, hbefore, rfl⟩, -, ⟨after, hafter, rfl⟩, rfl⟩
    refine ⟨Settings.requireBalance_ok_iff.1 hb, before, call, hcall, hbefore, ?_⟩
    rw [joined_around hbefore hafter, ((ofText_ok_iff_of_none hnone).1 hafter).2]
  · rintro ⟨hb, before, call, hcall, hbefore, rfl⟩
    have hafter : (ofText s .inline site.after).outcome = .ok (.raw site.after) :=
      (ofText_ok_iff_of_none hnone).2 ⟨fun hs ↦ Text.callSite?_balanced_after h (hb hs), rfl⟩
    exact ⟨(), Settings.requireBalance_ok_iff.2 hb, (), rfl, call, hcall, _,
      ⟨before, hbefore, rfl⟩, _, ⟨_, hafter, rfl⟩, joined_around hbefore hafter call⟩

def bound (mode : BindMode) (call : Expr) : Option Expr → Expr
  | some target => .bind target call mode
  | none => call

theorem ofCall_ok_iff {function : Text} {leading : Option Argument} {arguments : List Argument} :
    (ofCall s mode function leading arguments).outcome = .ok e ↔
      (Callee.ofName (Flag.split function).2).check s.placeholder
        ((leading.toList ++ arguments).map (·.text)) = .ok () ∧
      e = bound mode
        (.call (.ofName (Flag.split function).2)
          ((Callee.ofName (Flag.split function).2).complete s.placeholder
            (leading.toList ++ arguments)))
        (bindTarget (Flag.split function).1 leading
          ((Callee.ofName (Flag.split function).2).complete s.placeholder
            (leading.toList ++ arguments))) := by
  rw [ofCall, Logged.outcome_bind_eq_ok]
  constructor
  · rintro ⟨⟨⟩, hcheck, he⟩
    refine ⟨hcheck, ?_⟩
    rw [Logged.outcome_bind_eq_ok] at he
    obtain ⟨-, -, he⟩ := he
    rw [Logged.outcome_pure, Except.ok.injEq] at he
    rw [← he]
    rfl
  · rintro ⟨hcheck, rfl⟩
    refine ⟨(), hcheck, ?_⟩
    rw [Logged.outcome_bind_eq_ok]
    exact ⟨(), rfl, rfl⟩

end Expr

/-- The argument is written as the text, and reading the text gives its value. -/
def Argument.IsRead (s : Settings) (t : Text) (a : Argument) : Prop :=
  a.text = t ∧ (Expr.ofText s .inline t).outcome = .ok a.value

theorem Argument.isRead_iff {s : Settings} {t : Text} {a : Argument} :
    (Argument.mk t <$> Expr.ofText s .inline t).outcome = .ok a ↔ a.IsRead s t := by
  rw [Logged.outcome_map_eq_ok, IsRead]
  constructor
  · rintro ⟨e, he, rfl⟩
    exact ⟨rfl, he⟩
  · rintro ⟨rfl, he⟩
    exact ⟨a.value, he, rfl⟩

theorem Argument.forall_value {s : Settings} {ts : List Text} {given : List Argument}
    {P : Expr → Prop} (h : List.Forall₂ (Argument.IsRead s) ts given)
    (hP : ∀ t ∈ ts, ∀ e, (Expr.ofText s .inline t).outcome = .ok e → P e) :
    ∀ a ∈ given, P a.value := by
  induction h with
  | nil => simp
  | @cons t a ts given hread _ ih =>
    have htail := ih fun u hu ↦ hP u (by simp [hu])
    exact List.forall_mem_cons.2 ⟨hP t (by simp) a.value hread.2, htail⟩

theorem CallSite.read_ok_iff {s : Settings} {mode : BindMode} {site : CallSite} {e : Expr} :
    (site.read s mode).outcome = .ok e ↔
      (s.strictBrackets → Text.Balanced site.arguments) ∧ ∃ leading arguments,
        List.Forall₂ (Argument.IsRead s) site.leading?.toList leading.toList ∧
        List.Forall₂ (Argument.IsRead s) (Text.arguments site.arguments) arguments ∧
        (Expr.ofCall s mode site.function leading arguments).outcome = .ok e := by
  rw [read]
  simp only [Logged.outcome_bind_eq_ok, Logged.outcome_option_mapM_eq_ok,
    Logged.outcome_mapM_eq_ok, Argument.isRead_iff]
  constructor
  · rintro ⟨leading, hleading, ⟨⟩, hb, arguments, harguments, he⟩
    exact ⟨Settings.requireBalance_ok_iff.1 hb, leading, arguments, hleading, harguments, he⟩
  · rintro ⟨hb, leading, arguments, hleading, harguments, he⟩
    exact ⟨leading, hleading, (), Settings.requireBalance_ok_iff.2 hb, arguments, harguments, he⟩

end CallChain
