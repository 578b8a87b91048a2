import CallChain.Proofs.BracketFaults
import CallChain.Proofs.Statements

namespace CallChain

def Settings.strict (s : Settings) : Settings := { s with strictBrackets := true }

def Settings.lenient (s : Settings) : Settings := { s with strictBrackets := false }

/-- What is wrong is a bracket or a quote, of a text or of an argument list. -/
inductive Defect.OfNesting : Defect → Prop
  | brackets (i : Imbalance) : OfNesting (.brackets i)
  | arguments (i : Imbalance) : OfNesting (.arguments i)

theorem Imbalance.head?_message (i : Imbalance) :
    i.message.head? = some 'u' ∧ i.argumentsMessage.head? = some 'u' := by
  cases i <;> exact ⟨rfl, rfl⟩

theorem Defect.OfNesting.message_ne {d : Defect} (h : d.OfNesting) :
    d.message ≠ Defect.endlessRange.message := by
  have hrange : Defect.endlessRange.message.head? = some 'r' := rfl
  have hd : d.message.head? = some 'u' := by
    cases h with
    | brackets i => exact i.head?_message.1
    | arguments i => exact i.head?_message.2
  intro he
  rw [he, hrange] at hd
  simp at hd

theorem Callee.severity_event (callee : Callee) (n : Nat) : (callee.event n).severity = .trace := by
  cases callee <;> rfl

theorem Event.severity_eq_warn {e : Event} :
    e.severity = .warn ↔ ∃ t d, e = .unbalanced t d := by
  cases e <;> simp [severity]

namespace Logged

variable {α β : Type} {x y : Logged Fault α} {f g : α → Logged Fault β}

def NoWarning (log : List Event) : Prop := ∀ e ∈ log, e.severity ≠ .warn

theorem NoWarning.nil : NoWarning [] := by
  intro e he
  simp at he

theorem NoWarning.cons {e : Event} {log : List Event} (he : e.severity ≠ .warn)
    (h : NoWarning log) : NoWarning (e :: log) := List.forall_mem_cons.2 ⟨he, h⟩

theorem NoWarning.append {log log' : List Event} (h : NoWarning log) (h' : NoWarning log') :
    NoWarning (log ++ log') := by
  intro e he
  exact (List.mem_append.1 he).elim (h e) (h' e)

/-- The only malformed text that is refused is a range without an end. -/
def Lenient (x : Logged Fault α) : Prop :=
  ∀ t d, x.outcome = .error (.malformed t d) → d = .endlessRange

/-- The first computation is the second, cut short at its first warning. The warning becomes the
fault. -/
inductive CutShort : Logged Fault α → Logged Fault α → Prop
  | same {x : Logged Fault α} : NoWarning x.log → x.Lenient → CutShort x x
  | cut {log rest : List Event} {t : Text} {d : Defect} {outcome : Except Fault α} :
      NoWarning log → d.OfNesting → Lenient ⟨log ++ .unbalanced t d :: rest, outcome⟩ →
      CutShort ⟨log, .error (.malformed (Text.trim t) d)⟩
        ⟨log ++ .unbalanced t d :: rest, outcome⟩

namespace CutShort

theorem lenient (h : CutShort x y) : y.Lenient := by
  cases h with
  | same _ h => exact h
  | cut _ _ h => exact h

theorem pure (a : α) : CutShort (Pure.pure a) (Pure.pure a) := by
  refine .same .nil ?_
  intro t d h
  simp at h

theorem event {e : Event} (h : e.severity ≠ .warn) :
    CutShort (.event e) (.event e) := by
  refine .same (.cons h .nil) ?_
  intro t d h
  simp [Logged.event] at h

theorem ofExcept {r : Except Fault α} (h : ∀ fault, r = .error fault → fault.OfArguments) :
    CutShort (.ofExcept r) (.ofExcept r) := by
  refine .same .nil ?_
  intro t d he
  cases h _ he

theorem bind (hx : CutShort x y) (hf : ∀ a, CutShort (f a) (g a)) :
    CutShort (x >>= f) (y >>= g) := by
  cases hx with
  | @same x hlog hx =>
    rcases x with ⟨log, fault | a⟩
    · rw [bind_error, bind_error]
      refine .same hlog ?_
      intro t d h
      exact hx t d (congrArg Except.error (Except.error.inj h))
    · rw [bind_ok, bind_ok]
      generalize f a = x', g a = y', hf a = hfa
      cases hfa with
      | same hlog' hx' => exact .same (hlog.append hlog') hx'
      | cut hlog' hd hx' =>
        rw [← List.append_assoc]
        refine .cut (hlog.append hlog') hd ?_
        intro t d h
        exact hx' t d h
  | @cut log rest t d outcome hlog hd hx =>
    rcases outcome with fault | a
    · rw [bind_error, bind_error]
      refine .cut hlog hd ?_
      intro t' d' h
      exact hx t' d' (congrArg Except.error (Except.error.inj h))
    · rw [bind_error, bind_ok, List.append_assoc, List.cons_append]
      refine .cut hlog hd ?_
      intro t' d' h
      exact (hf a).lenient t' d' h

theorem map (hx : CutShort x y) (r : α → β) : CutShort (r <$> x) (r <$> y) := by
  rw [map_eq_pure_bind, map_eq_pure_bind]
  exact hx.bind fun a ↦ .pure (r a)

theorem mapM {l : List α} (h : ∀ a ∈ l, CutShort (f a) (g a)) :
    CutShort (l.mapM f) (l.mapM g) := by
  induction l with
  | nil => exact .pure []
  | cons a l ih =>
    rw [List.mapM_cons, List.mapM_cons]
    refine (h a (by simp)).bind fun b ↦ ?_
    exact (ih fun a' ha' ↦ h a' (by simp [ha'])).bind fun bs ↦ .pure (b :: bs)

theorem option_mapM {o : Option α} (h : ∀ a ∈ o, CutShort (f a) (g a)) :
    CutShort (o.mapM f) (o.mapM g) := by
  cases o with
  | none => exact .pure none
  | some a =>
    rw [Option.mapM_some, Option.mapM_some]
    exact (h a rfl).map some

end CutShort

end Logged

open Logged (CutShort)

theorem Settings.requireBalance_cutShort (s : Settings) (t : Text) {defect : Imbalance → Defect}
    (hd : ∀ i, (defect i).OfNesting) :
    CutShort (s.strict.requireBalance t defect) (s.lenient.requireBalance t defect) := by
  rw [requireBalance, requireBalance]
  cases Text.imbalance? t with
  | none => exact .pure ()
  | some i =>
    refine @CutShort.cut Unit [] [] t (defect i) (.ok ()) .nil (hd i) ?_
    intro t' d' h
    simp at h

namespace Expr

theorem leave_cutShort (t : Text) : CutShort (leave t) (leave t) := by
  rw [leave]
  refine .bind (.event (by simp [Event.severity])) fun _ ↦ ?_
  split
  · refine .bind (.event (by simp [Event.severity])) fun _ ↦ .pure _
  · exact .bind (.pure _) fun _ ↦ .pure _

variable (s : Settings) (mode : BindMode)

theorem ofCall_cutShort (function : Text) (leading : Option Argument) (arguments : List Argument) :
    CutShort (ofCall s.strict mode function leading arguments)
      (ofCall s.lenient mode function leading arguments) := by
  rw [ofCall, ofCall]
  refine .bind (.ofExcept fun fault ↦ Callee.check_error) fun _ ↦ ?_
  refine .bind (.event ?_) fun _ ↦ .pure _
  rw [Callee.severity_event]
  simp

theorem ofText_cutShort (text : Text) :
    CutShort (ofText s.strict mode text) (ofText s.lenient mode text) := by
  have hbrackets : ∀ t, CutShort (s.strict.requireBalance t .brackets)
      (s.lenient.requireBalance t .brackets) := fun t ↦
    s.requireBalance_cutShort t .brackets
  have hleave : ∀ mode {t}, Text.callSite? t = none →
      CutShort (ofText s.strict mode t) (ofText s.lenient mode t) := by
    intro mode t hnone
    rw [ofText_of_none hnone, ofText_of_none hnone]
    exact (hbrackets t).bind fun _ ↦ leave_cutShort t
  induction text using text_induction generalizing mode with
  | leave t hnone => exact hleave mode hnone
  | call t site hsite ihbefore ihtarget iharguments =>
    rw [ofText_of_some hsite, ofText_of_some hsite]
    refine (hbrackets t).bind fun _ ↦ .bind (.event (by simp [Event.severity])) fun _ ↦ ?_
    refine .bind (.option_mapM fun u hu ↦ (ihtarget u hu .inline).map _) fun leading ↦ ?_
    refine .bind (s.requireBalance_cutShort _ .arguments) fun _ ↦ ?_
    refine .bind (.mapM fun a ha ↦ (iharguments a ha .inline).map _) fun arguments ↦ ?_
    refine .bind (ofCall_cutShort s _ _ leading arguments) fun call ↦ ?_
    refine .bind (.option_mapM fun u hu ↦ ?_) fun before ↦
      .bind (.option_mapM fun u hu ↦ ?_) fun after ↦ .pure _
    · obtain ⟨rfl, -⟩ := Text.nonempty?_eq_some_iff.1 hu
      exact ihbefore .inline
    · obtain ⟨rfl, -⟩ := Text.nonempty?_eq_some_iff.1 hu
      exact hleave .inline (Text.callSite?_after hsite)

theorem ofInterval?_cutShort (t : Text) :
    CutShort (ofInterval? (ofText s.strict .inline) t)
      (ofInterval? (ofText s.lenient .inline) t) := by
  rw [ofInterval?, ofInterval?]
  cases Interval.ofText? t with
  | none => exact .pure none
  | some i =>
    dsimp only
    split
    · refine .same .nil ?_
      intro t' d h
      cases h
      rfl
    · refine (ofText_cutShort s _ i.start).bind fun start ↦ ?_
      refine (ofText_cutShort s _ i.stop).bind fun stop ↦ ?_
      exact (ofText_cutShort s _ i.step).bind fun step ↦ .pure _

end Expr

namespace Statement

variable (s : Settings) (code : Text)

theorem ofPlain_cutShort : CutShort (ofPlain s.strict code) (ofPlain s.lenient code) := by
  rw [ofPlain, ofPlain]
  refine (Expr.ofText_cutShort s _ code).bind fun value ↦ ?_
  split
  · exact .pure _
  · split
    · rename_i target value _
      exact (Expr.ofText_cutShort s _ value).map _
    · exact .pure _

theorem ofLoop_cutShort (target iterable : Text) :
    CutShort (ofLoop s.strict target iterable) (ofLoop s.lenient target iterable) := by
  rw [ofLoop, ofLoop]
  refine (Expr.ofInterval?_cutShort s iterable).bind fun range? ↦ ?_
  cases range? with
  | some range => exact .pure _
  | none => exact (Expr.ofText_cutShort s _ iterable).map _

theorem ofCode_cutShort : CutShort (ofCode s.strict code) (ofCode s.lenient code) := by
  rw [ofCode, ofCode]
  cases Heading.ofCode code with
  | loop target iterable => exact ofLoop_cutShort s target iterable
  | guarded guard test => exact (Expr.ofText_cutShort s _ test).map _
  | verbatim => exact .pure _
  | plain => exact ofPlain_cutShort s code

end Statement

theorem Logged.log_map {ε α β : Type} (r : α → β) (x : Logged ε α) : (r <$> x).log = x.log := by
  rw [map_eq_pure_bind]
  rcases x with ⟨log, fault | a⟩
  · rfl
  · rw [bind_ok, log_pure, List.append_nil]

open Logged (NoWarning)

namespace Program

/-- The first warning in reading the lines is of the text, and is logged while the line is read. -/
def FirstWarning (s : Settings) (layout : Layout) (ls : List SourceLine) (l : SourceLine)
    (t : Text) (d : Defect) : Prop :=
  ∃ before after log rest later, ls = before ++ l :: after ∧
    (Statement.ofCode s l.code).log = log ++ .unbalanced t d :: rest ∧
    (ofLines s layout ls).log =
      (ofLines s layout before).log ++ (Statement.ofCode s l.code).log ++ later ∧
    NoWarning ((ofLines s layout before).log ++ log)

variable {s : Settings} {layout : Layout} {ls : List SourceLine} {l l' : SourceLine}
  {t : Text} {d : Defect}

theorem FirstWarning.mem_log (h : FirstWarning s layout ls l t d) :
    .unbalanced t d ∈ (ofLines s layout ls).log := by
  obtain ⟨before, after, log, rest, later, -, hst, hlog, -⟩ := h
  rw [hlog, hst]
  simp

theorem FirstWarning.behind_blank (hl : l'.code = []) (h : FirstWarning s layout ls l t d) :
    FirstWarning s layout (l' :: ls) l t d := by
  obtain ⟨before, after, log, rest, later, hls, hst, hlog, hno⟩ := h
  refine ⟨l' :: before, after, log, rest, later, by rw [hls]; rfl, hst, ?_, ?_⟩
  · rw [ofLines_blank hl, ofLines_blank hl, Logged.log_map, Logged.log_map, hlog]
  · rwa [ofLines_blank hl, Logged.log_map]

theorem log_ofLines_code {log : List Event} {st : Statement} (hl : l.code ≠ [])
    (hst : Statement.ofCode s l.code = ⟨log, .ok st⟩) (ls : List SourceLine) :
    (ofLines s layout (l :: ls)).log =
      log ++ .lineRead l.number (layout.enter l.width).level st.kind ::
        (ofLines s (layout.after l.width l.code) ls).log := by
  rw [ofLines_code hl, SourceLine.codeLine_of_ok hst, Logged.bind_ok, Logged.log_map,
    List.append_assoc]
  rfl

theorem FirstWarning.behind_code {log : List Event} {st : Statement} (hl : l'.code ≠ [])
    (hst : Statement.ofCode s l'.code = ⟨log, .ok st⟩) (hno : NoWarning log)
    (h : FirstWarning s (layout.after l'.width l'.code) ls l t d) :
    FirstWarning s layout (l' :: ls) l t d := by
  obtain ⟨before, after, log', rest, later, hls, hst', hlog, hno'⟩ := h
  refine ⟨l' :: before, after, log', rest, later, by rw [hls]; rfl, hst', ?_, ?_⟩
  · rw [log_ofLines_code hl hst, log_ofLines_code hl hst, hlog]
    simp
  · rw [log_ofLines_code hl hst, List.append_assoc]
    exact hno.append (.cons (by simp [Event.severity]) hno')

theorem FirstWarning.of_head {log rest : List Event} (hl : l.code ≠ [])
    (hst : (Statement.ofCode s l.code).log = log ++ .unbalanced t d :: rest)
    (hno : NoWarning log) (ls : List SourceLine) : FirstWarning s layout (l :: ls) l t d := by
  have hlater : ∃ later, (ofLines s layout (l :: ls)).log =
      (Statement.ofCode s l.code).log ++ later := by
    rcases h : Statement.ofCode s l.code with ⟨log', fault | st⟩
    · rw [ofLines_code hl, SourceLine.codeLine_of_error h]
      exact ⟨_, rfl⟩
    · exact ⟨_, log_ofLines_code hl h ls⟩
  obtain ⟨later, hlater⟩ := hlater
  exact ⟨[], ls, log, rest, later, rfl, hst, hlater, hno⟩

variable (s layout ls)

theorem ofLines_cutShort :
    NoWarning (ofLines s.lenient layout ls).log ∧
      ofLines s.strict layout ls = ofLines s.lenient layout ls ∨
    ∃ l t d, FirstWarning s.lenient layout ls l t d ∧ d.OfNesting ∧
      (ofLines s.strict layout ls).outcome =
        .error ⟨l.number, l.raw, .malformed (Text.trim t) d⟩ := by
  induction ls generalizing layout with
  | nil => exact .inl ⟨.nil, rfl⟩
  | cons l ls ih =>
    by_cases hcode : l.code = []
    · obtain ⟨hno, heq⟩ | ⟨l', t, d, hfirst, hd, hout⟩ := ih layout
      · left
        rw [ofLines_blank hcode, ofLines_blank hcode, Logged.log_map, heq]
        exact ⟨hno, rfl⟩
      · right
        refine ⟨l', t, d, hfirst.behind_blank hcode, hd, ?_⟩
        rw [ofLines_blank hcode]
        exact Logged.outcome_map_eq_error.2 hout
    · have hcut := Statement.ofCode_cutShort s l.code
      generalize hx : Statement.ofCode s.strict l.code = x,
        hy : Statement.ofCode s.lenient l.code = y at hcut
      cases hcut with
      | same hno _ =>
        rcases x with ⟨log, fault | st⟩
        · left
          rw [ofLines_code hcode, ofLines_code hcode, SourceLine.codeLine_of_error hx,
            SourceLine.codeLine_of_error hy, Logged.bind_error, Logged.bind_error]
          exact ⟨hno.append (.cons (by simp [Event.severity]) .nil), rfl⟩
        · obtain ⟨hno', heq⟩ | ⟨l', t, d, hfirst, hd, hout⟩ := ih (layout.after l.width l.code)
          · left
            refine ⟨?_, ?_⟩
            · rw [log_ofLines_code hcode hy]
              exact hno.append (.cons (by simp [Event.severity]) hno')
            · rw [ofLines_code hcode, ofLines_code hcode, SourceLine.codeLine_of_ok hx,
                SourceLine.codeLine_of_ok hy, heq]
              rfl
          · right
            refine ⟨l', t, d, hfirst.behind_code hcode hy hno, hd, ?_⟩
            rw [ofLines_code hcode, SourceLine.codeLine_of_ok hx, Logged.bind_ok]
            exact Logged.outcome_map_eq_error.2 hout
      | @cut log rest t d outcome hno hd _ =>
        right
        refine ⟨l, t, d, .of_head hcode (by rw [hy]) hno ls, hd, ?_⟩
        rw [ofLines_code hcode, SourceLine.codeLine_of_error hx]
        rfl

theorem ofLines_lenient {f : LineFault}
    (h : (ofLines s.lenient layout ls).outcome = .error f) {t : Text} {d : Defect}
    (hf : f.fault = .malformed t d) : d = .endlessRange := by
  obtain ⟨l, -, -, -, hl⟩ := ofLines_error h
  rw [hf] at hl
  exact (Statement.ofCode_cutShort s l.code).lenient t d hl

end Program

/-- The fault is a malformed text, for another reason than a range without an end. -/
def LineFault.OfNesting (f : LineFault) : Prop :=
  ∃ t d, f.fault = .malformed t d ∧ d.message ≠ "range without an end".toList

theorem not_ofNesting_of_lenient {s : Settings} {source : Text} {f : LineFault}
    (h : (Program.ofSource s.lenient source).outcome = .error f) : ¬f.OfNesting := by
  rintro ⟨t, d, hf, hd⟩
  rw [Program.ofLines_lenient s _ _ h hf] at hd
  exact hd rfl

/-- A strict run and the lenient run of the same source. They agree unless the strict one is stopped
by a bracket or a quote, and then it is stopped where the lenient one first warns. -/
theorem compile_strict_lenient (s : Settings) (source : Text) :
    ((∀ f, (compile s.strict source).outcome = .error f → ¬f.OfNesting) →
      (Program.ofSource s.lenient source).outcome = (Program.ofSource s.strict source).outcome ∧
      (compile s.lenient source).outcome = (compile s.strict source).outcome) ∧
    (∀ f, (compile s.lenient source).outcome = .error f → ¬f.OfNesting) ∧
    ((∃ f, (compile s.strict source).outcome = .error f ∧ f.OfNesting) ↔
      ∃ t d, .unbalanced t d ∈ (compile s.lenient source).log) ∧
    ∀ f, (compile s.strict source).outcome = .error f → f.OfNesting →
      ∃ l t d, Program.FirstWarning s.lenient {} (SourceLine.ofSource source) l t d ∧
        f.line = l.number ∧ f.fault = .malformed (Text.trim t) d := by
  have hlog : (compile s.lenient source).log = (Program.ofSource s.lenient source).log :=
    Logged.log_map _ _
  simp only [compile_error_iff, hlog]
  obtain ⟨hno, heq⟩ | ⟨l, t, d, hfirst, hd, hout⟩ :=
    Program.ofLines_cutShort s {} (SourceLine.ofSource source)
  · have hsource : Program.ofSource s.strict source = Program.ofSource s.lenient source := heq
    have hstrict : ∀ f, (Program.ofSource s.strict source).outcome = .error f → ¬f.OfNesting := by
      intro f hf
      rw [hsource] at hf
      exact not_ofNesting_of_lenient hf
    refine ⟨fun _ ↦ ⟨by rw [hsource], by rw [compile, compile, hsource]; rfl⟩,
      fun f ↦ not_ofNesting_of_lenient, ⟨?_, ?_⟩, fun f hf h ↦ absurd h (hstrict f hf)⟩
    · rintro ⟨f, hf, h⟩
      exact absurd h (hstrict f hf)
    · rintro ⟨t, d, hmem⟩
      exact absurd (Event.severity_eq_warn.2 ⟨t, d, rfl⟩) (hno _ hmem)
  · have hnest : LineFault.OfNesting ⟨l.number, l.raw, .malformed (Text.trim t) d⟩ :=
      ⟨_, _, rfl, hd.message_ne⟩
    refine ⟨fun h ↦ absurd hnest (h _ hout), fun f ↦ not_ofNesting_of_lenient,
      ⟨fun _ ↦ ⟨t, d, hfirst.mem_log⟩, fun _ ↦ ⟨_, hout, hnest⟩⟩, ?_⟩
    intro f hf _
    cases hout.symm.trans hf
    exact ⟨l, t, d, hfirst, rfl, rfl⟩

end CallChain
