import CallChain.Proofs.Reading

namespace CallChain

/-- The faults in the number and in the types of the arguments of a call. -/
inductive Fault.OfArguments : Fault → Prop
  | arity (function : Text) (least : Nat) (most : Option Nat) (given : Nat) :
      OfArguments (.arity function least most given)
  | type (function : Text) (position : Nat) (argument : Text) (expected : TypeSet)
      (found : TypeTag) : OfArguments (.type function position argument expected found)

namespace Signature

variable {sig : Signature} {function placeholder : Text} {arguments : List Text} {fault : Fault}

theorem argumentFault_eq_some {i : Nat} {a : Text}
    (h : sig.argumentFault function placeholder i a = some fault) :
    ¬(sig.typesAt i).accepts (Literal.typeOf a) ∧
      fault = .type function (i + 1) a (sig.typesAt i) (Literal.typeOf a) := by
  simp only [argumentFault] at h
  split at h
  · cases h
  · split at h
    · cases h
    · rename_i haccepts
      exact ⟨haccepts, (Option.some.inj h).symm⟩

theorem check_error_cases (h : sig.check function placeholder arguments = .error fault) :
    fault = .arity function sig.required sig.maximum arguments.length ∨
    ∃ i a, arguments[i]? = some a ∧ ¬(sig.typesAt i).accepts (Literal.typeOf a) ∧
      fault = .type function (i + 1) a (sig.typesAt i) (Literal.typeOf a) := by
  rw [check] at h
  split at h
  · exact .inl (Except.error.inj h).symm
  · split at h
    · rename_i fault' hfault
      obtain ⟨r, hr, hfault⟩ := List.exists_of_findSome?_eq_some hfault
      cases h
      exact .inr ⟨r.2, r.1, List.mem_zipIdx_iff_getElem?.1 hr, argumentFault_eq_some hfault⟩
    · cases h

theorem check_error (h : sig.check function placeholder arguments = .error fault) :
    fault.OfArguments := by
  obtain rfl | ⟨i, a, -, -, rfl⟩ := check_error_cases h
  · exact .arity _ _ _ _
  · exact .type _ _ _ _ _

end Signature

theorem Callee.check_error {callee : Callee} {placeholder : Text} {arguments : List Text}
    {fault : Fault} (h : callee.check placeholder arguments = .error fault) :
    fault.OfArguments := by
  cases callee with
  | builtin b => exact Signature.check_error h
  | named function => simp [check] at h

namespace Expr

variable {s : Settings} {mode : BindMode} {text : Text} {fault : Fault}

theorem ofCall_error_iff {function : Text} {leading : Option Argument} {arguments : List Argument} :
    (ofCall s mode function leading arguments).outcome = .error fault ↔
      (Callee.ofName (Flag.split function).2).check s.placeholder
        ((leading.toList ++ arguments).map (·.text)) = .error fault := by
  rw [ofCall, Logged.outcome_bind_eq_error]
  constructor
  · rintro (h | ⟨-, -, h⟩)
    · exact h
    · rw [Logged.outcome_bind_eq_error] at h
      obtain h | ⟨-, -, h⟩ := h
      · cases h
      · cases h
  · exact .inl

end Expr

theorem Argument.map_text {s : Settings} {ts : List Text} {given : List Argument}
    (h : List.Forall₂ (IsRead s) ts given) : given.map (·.text) = ts := by
  induction h with
  | nil => rfl
  | cons hread _ ih => rw [List.map_cons, hread.1, ih]

/-- The texts of the arguments of a call, the target among them. -/
def CallSite.given (site : CallSite) : List Text :=
  site.leading?.toList ++ Text.arguments site.arguments

theorem CallSite.read_error {s : Settings} {mode : BindMode} {site : CallSite} {fault : Fault}
    (hargs : Text.Balanced site.arguments) (h : (site.read s mode).outcome = .error fault) :
    (∃ t ∈ site.given, (Expr.ofText s .inline t).outcome = .error fault) ∨
      (Callee.ofName (Flag.split site.function).2).check s.placeholder site.given =
        .error fault := by
  rw [read] at h
  simp only [Logged.outcome_bind_eq_error, Logged.outcome_option_mapM_eq_ok,
    Logged.outcome_mapM_eq_ok, Argument.isRead_iff] at h
  obtain h | ⟨leading, hleading, h | ⟨-, -, h | ⟨arguments, harguments, h⟩⟩⟩ := h
  · obtain ⟨t, ht, h⟩ := Logged.exists_of_outcome_option_mapM_eq_error h
    exact .inl ⟨t, List.mem_append_left _ (Option.mem_toList.2 ht), Logged.outcome_map_eq_error.1 h⟩
  · obtain ⟨-, i, hi, -⟩ := Settings.requireBalance_error_iff.1 h
    simp [Text.Balanced, hi] at hargs
  · obtain ⟨a, ha, h⟩ := Logged.exists_of_outcome_mapM_eq_error h
    exact .inl ⟨a, List.mem_append_right _ ha, Logged.outcome_map_eq_error.1 h⟩
  · rw [Expr.ofCall_error_iff, List.map_append, Argument.map_text hleading,
      Argument.map_text harguments] at h
    exact .inr h

namespace Expr

variable {s : Settings} {mode : BindMode} {text : Text} {fault : Fault}

/-- A text is refused for its brackets, for a text that it is read by, or for the arguments of its
call. -/
theorem ofText_error_cases (h : (ofText s mode text).outcome = .error fault) :
    (s.strictBrackets ∧ ∃ i, Text.imbalance? text = some i ∧
      fault = .malformed (Text.trim text) (.brackets i)) ∨
    ∃ site, Text.callSite? text = some site ∧
      ((∃ t ∈ site.before :: site.given, (ofText s .inline t).outcome = .error fault) ∨
        (Callee.ofName (Flag.split site.function).2).check s.placeholder site.given =
          .error fault) := by
  cases hsite : Text.callSite? text with
  | none =>
    rw [ofText_of_none hsite, Logged.outcome_bind_eq_error] at h
    obtain h | ⟨-, -, h⟩ := h
    · exact .inl (Settings.requireBalance_error_iff.1 h)
    · rw [leave_outcome] at h
      cases h
  | some site =>
    rw [ofText_of_site hsite] at h
    simp only [Logged.outcome_bind_eq_error] at h
    obtain h | ⟨⟨⟩, hbalance, h | ⟨-, -, h | ⟨_, -, h | ⟨_, -, h | ⟨_, -, h⟩⟩⟩⟩⟩ := h
    · exact .inl (Settings.requireBalance_error_iff.1 h)
    · cases h
    · obtain ⟨t, ht, h⟩ | h := CallSite.read_error (Text.callSite?_balanced hsite).2.2 h
      · exact .inr ⟨site, rfl, .inl ⟨t, List.mem_cons_of_mem _ ht, h⟩⟩
      · exact .inr ⟨site, rfl, .inr h⟩
    · obtain ⟨t, ht, h⟩ := Logged.exists_of_outcome_option_mapM_eq_error h
      obtain ⟨rfl, -⟩ := Text.nonempty?_eq_some_iff.1 ht
      exact .inr ⟨site, rfl, .inl ⟨site.before, List.mem_cons_self, h⟩⟩
    · obtain ⟨t, ht, h⟩ := Logged.exists_of_outcome_option_mapM_eq_error h
      obtain ⟨rfl, -⟩ := Text.nonempty?_eq_some_iff.1 ht
      have hok : (ofText s .inline site.after).outcome = .ok (.raw site.after) :=
        (ofText_ok_iff_of_none (Text.callSite?_after hsite)).2 ⟨fun hs ↦
          Text.callSite?_balanced_after hsite (Settings.requireBalance_ok_iff.1 hbalance hs), rfl⟩
      rw [hok] at h
      cases h
    · cases h

theorem ofText_error_of_balanced (ht : Text.Balanced text)
    (h : (ofText s mode text).outcome = .error fault) : fault.OfArguments := by
  induction text using text_induction generalizing mode with
  | leave t hnone =>
    have hok : (ofText s mode t).outcome = .ok (.raw t) :=
      (ofText_ok_iff_of_none hnone).2 ⟨fun _ ↦ ht, rfl⟩
    rw [hok] at h
    cases h
  | call t site hsite ihbefore ihtarget iharguments =>
    obtain ⟨hbefore, -, harguments⟩ := Text.callSite?_balanced hsite
    obtain ⟨-, i, hi, -⟩ | ⟨site', hsite', ⟨u, hu, h⟩ | h⟩ := ofText_error_cases h
    · simp [Text.Balanced, hi] at ht
    · cases hsite.symm.trans hsite'
      obtain rfl | hu := List.mem_cons.1 hu
      · exact ihbefore hbefore h
      · obtain hu | hu := List.mem_append.1 hu
        · have hu := Option.mem_toList.1 hu
          exact ihtarget u hu (Text.leading?_balanced hsite hu) h
        · exact iharguments u hu (Text.arguments_balanced harguments u hu) h
    · exact Callee.check_error h

theorem ofText_malformed_iff (hs : s.strictBrackets) {t : Text} {defect : Defect} :
    (ofText s mode text).outcome = .error (.malformed t defect) ↔
      ∃ i, Text.imbalance? text = some i ∧ t = Text.trim text ∧ defect = .brackets i := by
  match hi : Text.imbalance? text with
  | none =>
    refine ⟨fun h ↦ ?_, by simp⟩
    cases ofText_error_of_balanced hi h
  | some i =>
    have hb : (s.requireBalance text .brackets).outcome =
        .error (.malformed (Text.trim text) (.brackets i)) :=
      Settings.requireBalance_error_iff.2 ⟨hs, i, hi, rfl⟩
    have hall : (ofText s mode text).outcome =
        .error (.malformed (Text.trim text) (.brackets i)) := by
      rw [ofText, Logged.outcome_bind_eq_error]
      exact .inl hb
    simp [hall, eq_comm]

/-- A text is refused for its brackets by what is wrong with the whole of it. Whatever is read in
turn because a call was found is balanced, also where unbalanced texts are passed on. -/
theorem bracket_faults_outermost (s : Settings) (mode : BindMode) (text : Text) :
    (∀ site, Text.callSite? text = some site →
      Text.Balanced site.before ∧ (∀ t, site.leading? = some t → Text.Balanced t) ∧
      Text.Balanced site.arguments ∧ ∀ a ∈ Text.arguments site.arguments, Text.Balanced a) ∧
    (s.strictBrackets → ∀ t defect,
      (ofText s mode text).outcome = .error (.malformed t defect) ↔
        ∃ i, Text.imbalance? text = some i ∧ t = Text.trim text ∧ defect = .brackets i) ∧
    (Text.Balanced text → ∀ fault, (ofText s mode text).outcome = .error fault →
      fault.OfArguments) := by
  refine ⟨fun site h ↦ ?_, fun hs t defect ↦ ofText_malformed_iff hs,
    fun ht fault ↦ ofText_error_of_balanced ht⟩
  obtain ⟨hbefore, -, harguments⟩ := Text.callSite?_balanced h
  exact ⟨hbefore, fun t ↦ Text.leading?_balanced h, harguments,
    Text.arguments_balanced harguments⟩

end Expr

end CallChain
