import CallChain.Proofs.BracketFaults
import CallChain.Proofs.Placeholders
import Mathlib.Data.List.Nodup

namespace CallChain

namespace Text

variable {s t : Text} {n : Nesting} {separator : Char}

theorem segmentsFrom_append_separator (hs : n.after s = {}) (hp : Role.of separator = .plain)
    (t : Text) :
    segmentsFrom separator n (s ++ separator :: t) =
      segmentsFrom separator n s ++ segments separator t := by
  induction s generalizing n with
  | nil =>
    obtain rfl : n = {} := hs
    exact segments_append_of_after rfl rfl hp t
  | cons c s ih =>
    rw [List.cons_append, segmentsFrom, segmentsFrom]
    split
    · rw [ih hs, List.cons_append]
    · rw [ih hs]
      obtain ⟨u, us, hu⟩ := List.exists_cons_of_ne_nil (segmentsFrom_ne_nil separator (n.next c) s)
      rw [hu]
      rfl

theorem Balanced.arguments_append (hs : Balanced s) (t : Text) :
    arguments (s ++ ',' :: t) = arguments s ++ arguments t := by
  have hafter : ({} : Nesting).after s = {} := (balanced_iff.1 hs).after_eq
  rw [arguments, segments, segmentsFrom_append_separator hafter (by decide), List.map_append,
    List.filter_append]
  rfl

/-- The argument list with a text added to it at the end, some number of times. -/
def padded (arguments argument : Text) : Nat → Text
  | 0 => arguments
  | m + 1 => padded arguments argument m ++ ", ".toList ++ argument

theorem Balanced.padded (hs : Balanced s) (ht : Balanced t) (m : Nat) :
    Balanced (padded s t m) := by
  induction m with
  | zero => exact hs
  | succ m ih =>
    have hcomma : Balanced ", ".toList := by decide
    exact (ih.append hcomma).append ht

theorem arguments_padded (hs : Balanced s) (ht : Balanced t) (hargument : arguments t = [t])
    (m : Nat) :
    arguments (padded s t m) = arguments s ++ List.replicate m t := by
  induction m with
  | zero => simp [padded]
  | succ m ih =>
    have hjoin : padded s t (m + 1) = padded s t m ++ ',' :: ' ' :: t := by simp [padded]
    rw [hjoin, (hs.padded ht m).arguments_append, ih, arguments_cons_blank (by decide) (by decide),
      hargument, List.replicate_succ', List.append_assoc]

end Text

namespace Signature

variable {sig : Signature} {given m : Nat} {function placeholder : Text} {arguments : List Text}

theorem fits_of_le (hleast : sig.required ≤ given) (hmost : given ≤ sig.params.length) :
    sig.fits given := by
  rw [fits, maximum, Bool.and_eq_true]
  refine ⟨decide_eq_true hleast, ?_⟩
  cases sig.extra with
  | none => exact decide_eq_true hmost
  | some types => rfl

theorem check_append_placeholders (hleast : sig.required ≤ arguments.length)
    (hmost : arguments.length + m ≤ sig.params.length) :
    sig.check function placeholder (arguments ++ List.replicate m placeholder) =
      sig.check function placeholder arguments := by
  have hfits : sig.fits arguments.length := fits_of_le hleast (by omega)
  have hfits' : sig.fits (arguments ++ List.replicate m placeholder).length := by
    rw [List.length_append, List.length_replicate]
    exact fits_of_le (by omega) hmost
  have hnone : ((List.replicate m placeholder).zipIdx arguments.length).findSome?
      (fun r ↦ sig.argumentFault function placeholder r.2 r.1) = none := by
    refine List.findSome?_eq_none_iff.2 fun r hr ↦ ?_
    rw [List.eq_of_mem_replicate (List.fst_mem_of_mem_zipIdx hr), argumentFault, if_pos rfl]
  rw [check, check, hfits, hfits', List.zipIdx_append,
    List.findSome?_append, Nat.zero_add, hnone, Option.or_none]
  rfl

end Signature

/-- Each placeholder is filled as the argument in its place would be if it were left out. -/
theorem Callee.complete_append_placeholders {callee : Callee} {placeholder : Text} {e : Expr}
    {given : List Argument} {m : Nat} (h : given.length + m ≤ callee.paramCount) :
    callee.complete placeholder (given ++ List.replicate m ⟨placeholder, e⟩) =
      callee.complete placeholder given := by
  have hfilled : (List.replicate m (Argument.mk placeholder e)).mapIdx (fun i a ↦
        if a.text = placeholder then Expr.raw (callee.defaultAt (i + given.length)) else a.value) =
      (List.range' given.length m).map fun i ↦ .raw (callee.defaultAt i) := by
    refine List.ext_getElem (by simp) fun i _ _ ↦ ?_
    simp [Nat.add_comm]
  have hsplit : callee.paramCount - given.length =
      m + (callee.paramCount - (given.length + m)) := by omega
  rw [complete, complete, List.mapIdx_append, hfilled, List.append_assoc, ← List.map_append,
    List.length_append, List.length_replicate, hsplit, List.range'_append_1]

namespace Expr

variable {s : Settings} {mode : BindMode} {function : Text} {leading : Option Argument}
  {arguments : List Argument} {m : Nat} {b : Builtin}

theorem ofCall_append_placeholders {e : Expr}
    (hb : Callee.ofName (Flag.split function).2 = .builtin b)
    (hleast : b.signature.required ≤ (leading.toList ++ arguments).length)
    (hmost : (leading.toList ++ arguments).length + m ≤ b.signature.params.length) :
    (ofCall s mode function leading (arguments ++ List.replicate m ⟨s.placeholder, e⟩)).outcome =
      (ofCall s mode function leading arguments).outcome := by
  have hcheck : (Callee.builtin b).check s.placeholder
        ((leading.toList ++ arguments ++ List.replicate m (Argument.mk s.placeholder e)).map
          Argument.text) =
      (Callee.builtin b).check s.placeholder ((leading.toList ++ arguments).map Argument.text) := by
    rw [List.map_append, List.map_replicate]
    refine Signature.check_append_placeholders ?_ ?_
    · rwa [List.length_map]
    · rwa [List.length_map]
  have hcomplete : (Callee.builtin b).complete s.placeholder
        (leading.toList ++ arguments ++ List.replicate m ⟨s.placeholder, e⟩) =
      (Callee.builtin b).complete s.placeholder (leading.toList ++ arguments) :=
    Callee.complete_append_placeholders hmost
  simp only [ofCall, hb, ← List.append_assoc, Logged.outcome_bind, hcheck, hcomplete]

end Expr

theorem Logged.outcome_mapM_append {ε α β : Type} {f : α → Logged ε β} {l l' : List α} {bs : List β}
    (h : (l'.mapM f).outcome = .ok bs) :
    ((l ++ l').mapM f).outcome = (· ++ bs) <$> (l.mapM f).outcome := by
  rw [List.mapM_append, outcome_bind]
  cases (l.mapM f).outcome with
  | error e => rfl
  | ok as =>
    change (l'.mapM f >>= fun bs ↦ pure (as ++ bs)).outcome = .ok (as ++ bs)
    rw [outcome_bind, h]
    rfl

namespace Settings

variable {s : Settings}

theorem isRead_placeholder (hs : s.fault? = none) (hp : Text.Balanced s.placeholder) :
    Argument.IsRead s s.placeholder ⟨s.placeholder, .raw s.placeholder⟩ := by
  have hopen : '(' ∉ s.placeholder := (placeholder_of_fault? hs).2 '(' (by decide)
  exact ⟨rfl, (Expr.ofText_ok_iff_of_none (Text.callSite?_of_not_mem hopen)).2 ⟨fun _ ↦ hp, rfl⟩⟩

theorem mapM_placeholders (hs : s.fault? = none) (hp : Text.Balanced s.placeholder) (m : Nat) :
    ((List.replicate m s.placeholder).mapM fun t ↦
      Argument.mk t <$> Expr.ofText s .inline t).outcome =
      .ok (List.replicate m ⟨s.placeholder, .raw s.placeholder⟩) := by
  simp only [Logged.outcome_mapM_eq_ok, Argument.isRead_iff]
  induction m with
  | zero => exact .nil
  | succ m ih => exact .cons (isRead_placeholder hs hp) ih

end Settings

namespace CallSite

variable {s : Settings} {mode : BindMode} {site : CallSite} {b : Builtin} {m : Nat}

theorem read_append_placeholders (hs : s.fault? = none) (hp : Text.Balanced s.placeholder)
    (hb : Callee.ofName (Flag.split site.function).2 = .builtin b)
    (hleast : b.signature.required ≤ site.given.length)
    (hmost : site.given.length + m ≤ b.signature.params.length)
    (hargs : Text.Balanced site.arguments) {extended : Text} (hext : Text.Balanced extended)
    (hsplit : Text.arguments extended =
      Text.arguments site.arguments ++ List.replicate m s.placeholder) :
    (read s mode { site with arguments := extended }).outcome = (site.read s mode).outcome := by
  have hsame : leading? { site with arguments := extended } = site.leading? := rfl
  simp only [read, hsame, Logged.outcome_bind, Settings.requireBalance_of_balanced hargs,
    Settings.requireBalance_of_balanced hext, hsplit,
    Logged.outcome_mapM_append (Settings.mapM_placeholders hs hp m)]
  cases hleading : (site.leading?.mapM fun t ↦
      Argument.mk t <$> Expr.ofText s .inline t).outcome with
  | error fault => rfl
  | ok leading =>
    cases harguments : ((Text.arguments site.arguments).mapM fun t ↦
        Argument.mk t <$> Expr.ofText s .inline t).outcome with
    | error fault => rfl
    | ok arguments =>
      have hlength : (leading.toList ++ arguments).length = site.given.length := by
        rw [given, List.length_append, List.length_append,
          (Logged.outcome_option_mapM_eq_ok.1 hleading).length_eq,
          (Logged.outcome_mapM_eq_ok.1 harguments).length_eq]
      rw [← hlength] at hleast hmost
      exact Expr.ofCall_append_placeholders hb hleast hmost

end CallSite

def Flag.mark : Option Flag → Text
  | none => []
  | some .bindFirst => ['!']
  | some .discard => ['?']

namespace FunctionName

variable (f : FunctionName) (flag : Option Flag)

theorem split_mark : Flag.split (Flag.mark flag ++ f.text) = (flag, f.text) := by
  match flag with
  | none => exact f.split_eq
  | some .bindFirst => rfl
  | some .discard => rfl

theorem valid_mark : Text.isFunctionName (Flag.mark flag ++ f.text) := by
  have hvalid := f.valid
  rw [Text.isFunctionName, f.split_eq] at hvalid
  rwa [Text.isFunctionName, f.split_mark]

theorem role_mark : ∀ c ∈ Flag.mark flag ++ f.text, Role.of c = .plain ∧ ¬isBlank c := by
  have hname := Text.isNameChar_of_isFunctionName f.valid
  rw [f.split_eq] at hname
  intro c hc
  obtain hc | hc := List.mem_append.1 hc
  · have hmark : (Flag.mark flag).all fun c ↦ Role.of c = .plain && !isBlank c := by
      obtain _ | _ | _ := flag <;> rfl
    simpa using List.all_eq_true.1 hmark c hc
  · exact ⟨Role.of_name (hname c hc), not_isBlank_of_isNameChar (hname c hc)⟩

theorem trim_mark : Text.trim (Flag.mark flag ++ f.text) = Flag.mark flag ++ f.text :=
  Text.trim_eq_self (fun c hc ↦ (f.role_mark flag c (List.mem_of_mem_head? hc)).2)
    fun c hc ↦ (f.role_mark flag c (List.mem_of_getLast? hc)).2

theorem balanced_mark : Text.Balanced (Flag.mark flag ++ f.text) :=
  Text.Plain.balanced fun c hc ↦ (f.role_mark flag c hc).1

end FunctionName

namespace Builtin

variable {b : Builtin}

theorem table_names : table.all fun b ↦
    Text.isFunctionName b.name && (Flag.split b.name).1 = none := by decide +kernel

theorem table_nodup : (table.map (·.name)).Nodup := by decide +kernel

theorem lookup?_of_mem (hb : b ∈ table) : lookup? b.name = some b := by
  cases h : lookup? b.name with
  | none => simpa using List.find?_eq_none.1 h b hb
  | some b' =>
    exact congrArg some
      (List.inj_on_of_nodup_map table_nodup (mem_of_lookup? h) hb (lookup?_name h))

def callText (b : Builtin) (flag : Option Flag) (target : Option Text) (arguments : Text) : Text :=
  Text.chained (target.toList ++ [Flag.mark flag ++ b.name, arguments])

def callSite (b : Builtin) (flag : Option Flag) (target : Option Text) (arguments : Text) :
    CallSite :=
  ⟨[], target, Flag.mark flag ++ b.name, arguments, []⟩

theorem callSite?_callText (hb : b ∈ table) (flag : Option Flag) {target : Option Text}
    {arguments : Text} (htarget : ∀ t ∈ target, Text.Balanced t) (hargs : Text.Balanced arguments) :
    Text.Balanced (b.callText flag target arguments) ∧
      Text.callSite? (b.callText flag target arguments) =
        some (b.callSite flag target arguments) ∧
      Callee.ofName (Flag.split (Flag.mark flag ++ b.name)).2 = .builtin b := by
  have hname := List.all_eq_true.1 table_names b hb
  rw [Bool.and_eq_true, decide_eq_true_eq] at hname
  let f : FunctionName := ⟨b.name, hname.1, hname.2⟩
  have hbalanced : ∀ u ∈ target.toList ++ [Flag.mark flag ++ b.name, arguments],
      Text.Balanced u := by
    simp only [List.forall_mem_append, List.forall_mem_cons, Option.mem_toList]
    exact ⟨htarget, f.balanced_mark flag, hargs, by simp⟩
  refine ⟨Text.balanced_chained hbalanced,
    Text.callSite?_chained target (f.valid_mark flag) (f.trim_mark flag) hbalanced, ?_⟩
  rw [show Flag.split (Flag.mark flag ++ b.name) = _ from f.split_mark flag, Callee.ofName,
    lookup?_of_mem hb]

end Builtin

namespace Expr

variable {s : Settings} {mode : BindMode}

theorem ofText_outcome_congr {text text' : Text} {site site' : CallSite}
    (h : Text.callSite? text = some site) (h' : Text.callSite? text' = some site')
    (ht : Text.Balanced text) (ht' : Text.Balanced text') (hbefore : site'.before = site.before)
    (hafter : site'.after = site.after)
    (hread : ∀ mode, (site'.read s mode).outcome = (site.read s mode).outcome) :
    (ofText s mode text').outcome = (ofText s mode text).outcome := by
  have hmode : site'.bindMode mode = site.bindMode mode := by
    rw [CallSite.bindMode, CallSite.bindMode, hbefore, hafter]
  rw [ofText_of_site h, ofText_of_site h']
  simp only [Logged.outcome_bind, Settings.requireBalance_of_balanced ht,
    Settings.requireBalance_of_balanced ht', hmode, hread, hbefore, hafter]
  rfl

variable {b : Builtin} {flag : Option Flag} {target : Option Text} {arguments : Text} {m : Nat}

theorem ofText_extended {extended : Text} (hs : s.fault? = none) (hp : Text.Balanced s.placeholder)
    (hb : b ∈ Builtin.table) (htarget : ∀ t ∈ target, Text.Balanced t)
    (hargs : Text.Balanced arguments)
    (hleast : b.signature.required ≤ (b.callSite flag target arguments).given.length)
    (hmost : (b.callSite flag target arguments).given.length + m ≤ b.signature.params.length)
    (hext : Text.Balanced extended)
    (hsplit : Text.arguments extended =
      Text.arguments arguments ++ List.replicate m s.placeholder) :
    (ofText s mode (b.callText flag target extended)).outcome =
      (ofText s mode (b.callText flag target arguments)).outcome := by
  obtain ⟨htext, hsite, hcallee⟩ := Builtin.callSite?_callText hb flag htarget hargs
  obtain ⟨htext', hsite', -⟩ := Builtin.callSite?_callText hb flag htarget hext
  refine ofText_outcome_congr hsite hsite' htext htext' rfl rfl fun mode ↦ ?_
  exact CallSite.read_append_placeholders hs hp hcallee hleast hmost hargs hext hsplit

/-- The same call, with and without placeholders at the end of its arguments. There are no more of
them than there are parameters left. -/
theorem ofText_trailing_placeholders (hs : s.fault? = none)
    (hp : Text.balancedArguments s.placeholder = .ok [s.placeholder]) (hb : b ∈ Builtin.table)
    (htarget : ∀ t ∈ target, Text.Balanced t) (hargs : Text.Balanced arguments)
    (hleast : b.signature.required ≤ (b.callSite flag target arguments).given.length)
    (hmost : (b.callSite flag target arguments).given.length + m ≤ b.signature.params.length)
    (mode : BindMode) :
    (∀ extended, Text.Balanced extended →
      Text.arguments extended = Text.arguments arguments ++ List.replicate m s.placeholder →
        (ofText s mode (b.callText flag target extended)).outcome =
          (ofText s mode (b.callText flag target arguments)).outcome) ∧
    (ofText s mode (b.callText flag target (Text.padded arguments s.placeholder m))).outcome =
      (ofText s mode (b.callText flag target arguments)).outcome := by
  have hplaceholder : Text.Balanced s.placeholder ∧
      Text.arguments s.placeholder = [s.placeholder] := by
    rw [Text.balancedArguments] at hp
    split at hp
    · cases hp
    · rename_i hbalanced
      exact ⟨hbalanced, Except.ok.inj hp⟩
  obtain ⟨hbalanced, hwhole⟩ := hplaceholder
  refine ⟨fun extended hext hsplit ↦ ?_, ?_⟩
  · exact ofText_extended hs hbalanced hb htarget hargs hleast hmost hext hsplit
  · exact ofText_extended hs hbalanced hb htarget hargs hleast hmost (hargs.padded hbalanced m)
      (Text.arguments_padded hargs hbalanced hwhole m)

theorem ofText_trailing_placeholders_pop :
    (ofText {} .statement "(xs)(!pop)(, ~)".toList).outcome =
      (ofText {} .statement "(xs)(!pop)()".toList).outcome := by
  have hmem : (Builtin.lookup? "pop".toList).get (by decide) ∈ Builtin.table :=
    Builtin.mem_of_lookup? (Option.some_get _).symm
  have htarget : ∀ t ∈ some "xs".toList, Text.Balanced t := by
    rintro t ⟨⟩
    decide
  exact (@ofText_trailing_placeholders {} _ (some .bindFirst) _ [] 1 (by decide) (by decide) hmem
    htarget (by decide) (by decide) (by decide) .statement).2

end Expr

end CallChain
