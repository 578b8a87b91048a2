import CallChain.Proofs.MadeOf

namespace CallChain

mutual

/-- The expression and all expressions in it. -/
def Expr.nodes : Expr → List Expr
  | .raw text => [.raw text]
  | .concat parts => .concat parts :: Expr.nodesAll parts
  | .call callee arguments => .call callee arguments :: Expr.nodesAll arguments
  | .bind target value mode => .bind target value mode :: (target.nodes ++ value.nodes)
  | .range start stop step => .range start stop step :: (start.nodes ++ stop.nodes ++ step.nodes)

def Expr.nodesAll : List Expr → List Expr
  | [] => []
  | e :: es => e.nodes ++ Expr.nodesAll es

end

namespace Expr

theorem nodesAll_eq_flatMap (es : List Expr) : nodesAll es = es.flatMap nodes := by
  induction es with
  | nil => rfl
  | cons e es ih => rw [nodesAll, ih, List.flatMap_cons]

@[simp] theorem nodes_raw (text : Text) : (raw text).nodes = [raw text] := rfl

@[simp] theorem nodes_concat (parts : List Expr) :
    (concat parts).nodes = concat parts :: parts.flatMap nodes :=
  congrArg (concat parts :: ·) (nodesAll_eq_flatMap parts)

@[simp] theorem nodes_call (callee : Callee) (arguments : List Expr) :
    (call callee arguments).nodes = call callee arguments :: arguments.flatMap nodes :=
  congrArg (call callee arguments :: ·) (nodesAll_eq_flatMap arguments)

@[simp] theorem nodes_bind (target value : Expr) (mode : BindMode) :
    (bind target value mode).nodes = bind target value mode :: (target.nodes ++ value.nodes) := rfl

@[simp] theorem nodes_range (start stop step : Expr) :
    (range start stop step).nodes =
      range start stop step :: (start.nodes ++ stop.nodes ++ step.nodes) := rfl

theorem mem_nodes_self (e : Expr) : e ∈ e.nodes := by
  cases e <;> exact List.mem_cons_self

section

variable {P : Expr → Prop} {es : List Expr}

theorem forall_nodes_raw {t : Text} : (∀ d ∈ (raw t).nodes, P d) ↔ P (raw t) :=
  List.forall_mem_singleton

theorem forall_nodes_concat :
    (∀ d ∈ (concat es).nodes, P d) ↔ P (concat es) ∧ ∀ e ∈ es, ∀ d ∈ e.nodes, P d := by
  rw [nodes_concat, List.forall_mem_cons, List.forall_mem_flatMap]

theorem forall_nodes_call {callee : Callee} :
    (∀ d ∈ (call callee es).nodes, P d) ↔ P (call callee es) ∧ ∀ e ∈ es, ∀ d ∈ e.nodes, P d := by
  rw [nodes_call, List.forall_mem_cons, List.forall_mem_flatMap]

theorem forall_nodes_bind {target value : Expr} {mode : BindMode} :
    (∀ d ∈ (bind target value mode).nodes, P d) ↔
      P (bind target value mode) ∧ (∀ d ∈ target.nodes, P d) ∧ ∀ d ∈ value.nodes, P d := by
  rw [nodes_bind, List.forall_mem_cons, List.forall_mem_append]

theorem forall_nodes_range {start stop step : Expr} :
    (∀ d ∈ (range start stop step).nodes, P d) ↔ P (range start stop step) ∧
      ((∀ d ∈ start.nodes, P d) ∧ ∀ d ∈ stop.nodes, P d) ∧ ∀ d ∈ step.nodes, P d := by
  rw [nodes_range, List.forall_mem_cons, List.forall_mem_append, List.forall_mem_append]

end

def isCall : Expr → Bool
  | .call .. => true
  | _ => false

def hasCall (e : Expr) : Bool := e.nodes.any isCall

end Expr

/-- A function stands for what its name is looked up as, and the arguments are as many as its
parameters. So each hole of a template is filled with an argument. -/
structure Callee.Fits (callee : Callee) (arguments : List Expr) : Prop where
  lookup : callee = .ofName callee.name
  count : ∀ b, callee = .builtin b → b.signature.params.length ≤ arguments.length ∧
    (b.signature.extra = none → arguments.length = b.signature.params.length)
  hole : ∀ b, callee = .builtin b → ∀ i, .hole i ∈ b.template →
    ∃ a, arguments[i]? = some a ∧ Piece.fill (Expr.pythonAll arguments) (.hole i) = a.python true

namespace Expr

/-- What is required of one place of an expression. -/
def IsSound : Expr → Prop
  | .raw _ => True
  | .concat parts =>
    2 ≤ parts.length ∧ (∀ e ∈ parts, ¬e.isEmpty) ∧ ∃ e ∈ parts, e.hasCall
  | .call callee arguments => callee.Fits arguments
  | .bind target value _ => target.isAssignable ∧ value.isCall
  | .range .. => False

def WellFormed (e : Expr) : Prop := ∀ d ∈ e.nodes, d.IsSound

end Expr

def Piece.isBelow (n : Nat) : Piece → Bool
  | .hole i => i < n
  | _ => true

theorem Builtin.table_holes {b : Builtin} (hb : b ∈ table) {i : Nat} (hi : .hole i ∈ b.template) :
    i < b.signature.params.length := by
  have htable : table.all fun b ↦ b.template.all (Piece.isBelow b.signature.params.length) := by
    decide +kernel
  have hbelow := List.all_eq_true.1 (List.all_eq_true.1 htable b hb) (.hole i) hi
  exact of_decide_eq_true hbelow

theorem Signature.fits_of_check {s : Signature} {function placeholder : Text} {ts : List Text}
    (h : s.check function placeholder ts = .ok ()) : s.fits ts.length := by
  by_contra hfits
  rw [check, if_pos (by simpa using hfits)] at h
  simp at h

theorem Signature.le_of_fits {s : Signature} {n : Nat} (h : s.fits n) (hextra : s.extra = none) :
    n ≤ s.params.length := by
  rw [fits, Bool.and_eq_true, maximum, hextra] at h
  simpa using h.2

namespace Callee

variable {placeholder : Text} {given : List Argument}

theorem length_complete (callee : Callee) (placeholder : Text) (given : List Argument) :
    (callee.complete placeholder given).length = max given.length callee.paramCount := by
  rw [complete, List.length_append, List.length_mapIdx, List.length_map, List.length_range']
  omega

theorem mem_table_of_ofName {function : Text} {b : Builtin} (h : ofName function = .builtin b) :
    b ∈ Builtin.table := by
  rw [ofName] at h
  split at h
  · rename_i hb
    cases h
    exact Builtin.mem_of_lookup? hb
  · simp at h

theorem paramCount_builtin (b : Builtin) : (builtin b).paramCount = b.signature.params.length := rfl

theorem fits_complete {function : Text}
    (h : (ofName function).check placeholder (given.map (·.text)) = .ok ()) :
    (ofName function).Fits ((ofName function).complete placeholder given) := by
  have hlength := length_complete (ofName function) placeholder given
  constructor
  · rw [name_ofName]
  · intro b hb
    rw [hb] at h hlength ⊢
    rw [paramCount_builtin] at hlength
    refine ⟨by omega, fun hextra ↦ ?_⟩
    have hle := Signature.le_of_fits (Signature.fits_of_check h) hextra
    rw [List.length_map] at hle
    omega
  · intro b hb i hi
    have hbelow := Builtin.table_holes (mem_table_of_ofName hb) hi
    rw [hb] at hlength ⊢
    rw [paramCount_builtin] at hlength
    have hlt : i < ((builtin b).complete placeholder given).length := by omega
    refine ⟨_, List.getElem?_eq_getElem hlt, ?_⟩
    rw [Piece.fill, Expr.pythonAll_eq_map, List.getElem?_map, List.getElem?_eq_getElem hlt]
    rfl

end Callee

namespace Expr

variable {s : Settings} {mode : BindMode} {text : Text} {e : Expr} {es : List Expr}

theorem hasCall_iff : e.hasCall ↔ ∃ d ∈ e.nodes, d.isCall := List.any_eq_true

theorem hasCall_of_isCall (h : e.isCall) : e.hasCall :=
  hasCall_iff.2 ⟨e, mem_nodes_self e, h⟩

theorem hasCall_concat (h : ∃ e ∈ es, e.hasCall) : (concat es).hasCall := by
  obtain ⟨e, he, hcall⟩ := h
  obtain ⟨d, hd, hdcall⟩ := hasCall_iff.1 hcall
  rw [hasCall_iff, nodes_concat]
  exact ⟨d, List.mem_cons_of_mem _ (List.mem_flatMap.2 ⟨e, he, hd⟩), hdcall⟩

theorem hasCall_bind {target value : Expr} (h : value.hasCall) :
    (bind target value mode).hasCall := by
  obtain ⟨d, hd, hcall⟩ := hasCall_iff.1 h
  rw [hasCall_iff, nodes_bind]
  exact ⟨d, List.mem_cons_of_mem _ (List.mem_append_right _ hd), hcall⟩

theorem not_hasCall_raw (t : Text) : ¬(raw t).hasCall := by simp [hasCall, isCall]

theorem not_isEmpty_of_hasCall (h : e.hasCall) : ¬e.isEmpty := by
  cases e with
  | raw t => exact absurd h (not_hasCall_raw t)
  | concat | call | bind | range => simp [isEmpty]

namespace WellFormed

theorem raw (t : Text) : (raw t).WellFormed := forall_nodes_raw.2 trivial

theorem concat (h : ∀ e ∈ es, e.WellFormed) (hsound : (concat es).IsSound) :
    (concat es).WellFormed := forall_nodes_concat.2 ⟨hsound, h⟩

theorem call {callee : Callee} (h : ∀ e ∈ es, e.WellFormed) (hfits : callee.Fits es) :
    (call callee es).WellFormed := forall_nodes_call.2 ⟨hfits, h⟩

theorem bind {target value : Expr} (htarget : target.isAssignable) (hcall : value.isCall)
    (hvalue : value.WellFormed) : (bind target value mode).WellFormed := by
  refine forall_nodes_bind.2 ⟨⟨htarget, hcall⟩, ?_, hvalue⟩
  cases target with
  | raw t => exact raw t
  | concat | call | bind | range => simp [isAssignable] at htarget

theorem sound (h : e.WellFormed) : e.IsSound := h e (mem_nodes_self e)

theorem isRaw_iff (h : e.WellFormed) : e.isRaw ↔ ¬e.hasCall := by
  have hsound := h.sound
  cases e with
  | raw t => simp [isRaw, not_hasCall_raw]
  | concat parts => simp [isRaw, hasCall_concat hsound.2.2]
  | call callee arguments =>
    have hcall : (Expr.call callee arguments).isCall := rfl
    simp [isRaw, hasCall_of_isCall hcall]
  | bind target value mode => simp [isRaw, hasCall_bind (hasCall_of_isCall hsound.2)]
  | range => exact hsound.elim

theorem joined (h : ∀ e ∈ es, e.WellFormed) (hcall : ∃ e ∈ es, e.hasCall) :
    (joined es).WellFormed ∧ (joined es).hasCall := by
  have hparts : ∀ e ∈ es.filter (!·.isEmpty), e.WellFormed ∧ ¬e.isEmpty := by
    intro e he
    obtain ⟨hmem, hne⟩ := List.mem_filter.1 he
    exact ⟨h e hmem, by simpa using hne⟩
  have hkept : ∃ e ∈ es.filter (!·.isEmpty), e.hasCall := by
    obtain ⟨e, he, hcall⟩ := hcall
    have hne := not_isEmpty_of_hasCall hcall
    exact ⟨e, List.mem_filter.2 ⟨he, by simpa using hne⟩, hcall⟩
  rw [Expr.joined]
  generalize es.filter (!·.isEmpty) = parts at hparts hkept
  rcases parts with - | ⟨e, - | ⟨e', rest⟩⟩
  · simp at hkept
  · obtain ⟨e', he', hcall⟩ := hkept
    rw [List.mem_singleton.1 he'] at hcall
    exact ⟨(hparts e (by simp)).1, hcall⟩
  · refine ⟨.concat (fun d hd ↦ (hparts d hd).1) ⟨?_, fun d hd ↦ (hparts d hd).2, hkept⟩,
      hasCall_concat hkept⟩
    simp

theorem bound {target : Option Expr} {value : Expr} (htarget : ∀ e ∈ target, e.isAssignable)
    (hcall : value.isCall) (hvalue : value.WellFormed) :
    (bound mode value target).WellFormed ∧ (bound mode value target).hasCall := by
  cases target with
  | none => exact ⟨hvalue, hasCall_of_isCall hcall⟩
  | some target =>
    exact ⟨.bind (htarget target rfl) hcall hvalue, hasCall_bind (hasCall_of_isCall hcall)⟩

end WellFormed

theorem isAssignable_bindTarget (flag : Option Flag) (leading : Option Argument)
    (values : List Expr) : ∀ e ∈ bindTarget flag leading values, e.isAssignable := by
  intro e he
  rw [bindTarget.eq_def] at he
  split at he
  · exact (Option.filter_eq_some_iff.1 he).2
  · simp at he
  · exact (Option.filter_eq_some_iff.1 he).2

theorem ofCall_wellFormed {function : Text} {leading : Option Argument} {arguments : List Argument}
    (hgiven : ∀ a ∈ leading.toList ++ arguments, a.value.WellFormed)
    (h : (ofCall s mode function leading arguments).outcome = .ok e) :
    e.WellFormed ∧ e.hasCall := by
  obtain ⟨hcheck, rfl⟩ := ofCall_ok_iff.1 h
  refine WellFormed.bound (isAssignable_bindTarget _ _ _) rfl ?_
  apply WellFormed.call _ (Callee.fits_complete hcheck)
  intro e he
  obtain ⟨i, rfl⟩ | ⟨a, ha, rfl⟩ := Callee.mem_complete he
  · exact .raw _
  · exact hgiven a ha

theorem wellFormed_of_ofText (h : (ofText s mode text).outcome = .ok e) :
    e.WellFormed ∧ (e.isRaw → e = .raw text) := by
  induction text using text_induction generalizing mode e with
  | leave t hnone =>
    obtain ⟨-, rfl⟩ := (ofText_ok_iff_of_none hnone).1 h
    exact ⟨.raw t, fun _ ↦ rfl⟩
  | call t site hsite ihbefore ihtarget iharguments =>
    obtain ⟨-, before, call, hread, hbefore, rfl⟩ := (ofText_ok_iff hsite).1 h
    obtain ⟨-, leading, arguments, hl, ha, hcall⟩ := CallSite.read_ok_iff.1 hread
    have hleading : ∀ a ∈ leading.toList, a.value.WellFormed :=
      Argument.forall_value hl fun u hu e he ↦ (ihtarget u (Option.mem_toList.1 hu) he).1
    have harguments : ∀ a ∈ arguments, a.value.WellFormed :=
      Argument.forall_value ha fun u hu e he ↦ (iharguments u hu he).1
    obtain ⟨hsound, hhas⟩ := ofCall_wellFormed
      (List.forall_mem_append.2 ⟨hleading, harguments⟩) hcall
    have hparts : ∀ e ∈ [before, call, .raw site.after], e.WellFormed := by
      simp only [List.forall_mem_cons, List.not_mem_nil, false_implies, implies_true, and_true]
      exact ⟨(ihbefore hbefore).1, hsound, .raw site.after⟩
    obtain ⟨hjoined, hkept⟩ := WellFormed.joined hparts ⟨call, by simp, hhas⟩
    exact ⟨hjoined, fun hraw ↦ absurd hkept (hjoined.isRaw_iff.1 hraw)⟩

/-- An expression that is read is well formed. It is a text where no call stands in it, and then it
is the text that was read. -/
theorem ofText_wellFormed (h : (ofText s mode text).outcome = .ok e) :
    e.WellFormed ∧ (e.isRaw ↔ ¬e.hasCall) ∧ (e.isRaw → e = .raw text) := by
  obtain ⟨hsound, hraw⟩ := wellFormed_of_ofText h
  exact ⟨hsound, hsound.isRaw_iff, hraw⟩

theorem ofText_wellFormed_defaults :
    let text := "k - (x)(round)(~) * (pop)(q)".toList
    ∃ e, (ofText {} .inline text).outcome = .ok e ∧
      e.python true = "k - (x := round(x, None)) * q.pop(-1)".toList ∧ e.WellFormed ∧
      e.hasCall := by
  intro text
  have hread : (ofText {} .inline text).outcome.map (fun e ↦ (e.python true, e.isRaw)) =
      .ok ("k - (x := round(x, None)) * q.pop(-1)".toList, false) := by
    decide +kernel
  cases h : (ofText {} .inline text).outcome with
  | error fault => simp [h, Except.map] at hread
  | ok e =>
    rw [h, Except.map, Except.ok.injEq, Prod.mk.injEq] at hread
    obtain ⟨hsound, hcall, -⟩ := ofText_wellFormed h
    refine ⟨e, rfl, hread.1, hsound, ?_⟩
    by_contra hno
    simp [hcall.2 hno] at hread

end Expr

end CallChain
