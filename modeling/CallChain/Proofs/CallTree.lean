import CallChain.Proofs.Reading
import CallChain.Proofs.Words

namespace CallChain

/-- A text that an argument list gives back as one argument, and that fits every parameter. -/
structure Text.IsArgument (t : Text) : Prop where
  ne_nil : t ≠ []
  trimmed : trim t = t
  balanced : Balanced t
  whole : segments ',' t = [t]
  untyped : Literal.typeOf t = .any
  kept : t ≠ ({} : Settings).placeholder

namespace Text

theorem segmentsFrom_of_topOffsets {separator : Char} {n : Nesting} {offset : Nat} {t : Text}
    (h : topOffsetsFrom [separator] n offset t = []) : segmentsFrom separator n t = [t] := by
  induction t generalizing n offset with
  | nil => rfl
  | cons c t ih =>
    rw [topOffsetsFrom] at h
    split at h
    · simp at h
    · rename_i hc
      have hsep : ¬(n.isTop && c = separator) := by
        intro hs
        rw [Bool.and_eq_true, decide_eq_true_eq] at hs
        exact hc (by simp [List.isPrefixOf, hs.1, hs.2])
      rw [segmentsFrom_cons hsep, ih h]
      rfl

theorem arguments_nil : arguments [] = [] := by decide

theorem IsArgument.arguments_eq {t : Text} (h : t.IsArgument) : arguments t = [t] := by
  simp [arguments, h.whole, h.trimmed, h.ne_nil]

theorem IsArgument.arguments_append {t : Text} (h : t.IsArgument) (u : Text) :
    arguments (t ++ ',' :: u) = t :: arguments u := by
  simp [arguments, segments_append h.balanced h.whole (by decide), h.trimmed, h.ne_nil]

theorem arguments_cons_blank {c : Char} (hc : CallChain.isBlank c) (hcomma : c ≠ ',') (t : Text) :
    arguments (c :: t) = arguments t := by
  have hsep : ¬(({} : Nesting).isTop && c = ',') := by simp [hcomma]
  obtain ⟨u, us, hu⟩ := List.exists_cons_of_ne_nil (segmentsFrom_ne_nil ',' {} t)
  rw [arguments, arguments, segments, segments, segmentsFrom_cons hsep,
    Nesting.next_plain rfl (Role.of_blank hc), hu]
  simp [trim_cons_blank hc]

theorem arguments_intercalate {ts : List Text} (h : ∀ t ∈ ts, IsArgument t) :
    arguments (", ".toList.intercalate ts) = ts := by
  induction ts with
  | nil => exact arguments_nil
  | cons t ts ih =>
    have ht := h t (by simp)
    cases ts with
    | nil => simpa using ht.arguments_eq
    | cons u us =>
      have hjoin : ", ".toList.intercalate (t :: u :: us) =
          t ++ ',' :: ' ' :: ", ".toList.intercalate (u :: us) := by
        simp [List.intercalate]
      rw [hjoin, ht.arguments_append, arguments_cons_blank (by decide) (by decide),
        ih fun x hx ↦ h x (by simp [hx])]

/-- Texts in parentheses, one right behind the other. -/
def chained (ts : List Text) : Text := ts.flatMap fun t ↦ '(' :: t ++ [')']

theorem chained_eq_groups (ts : List Text) :
    chained ts = (ts.map (Group.mk [])).flatMap Group.text := by
  rw [List.flatMap_map]
  rfl

theorem sound_of_chained {ts : List Text} (h : ∀ t ∈ ts, Balanced t) :
    ∀ g ∈ ts.map (Group.mk []), g.Sound := by
  intro g hg
  obtain ⟨t, ht, rfl⟩ := List.mem_map.1 hg
  exact Group.sound_of_gap_nil (h t ht)

theorem balanced_chained {ts : List Text} (h : ∀ t ∈ ts, Balanced t) : Balanced (chained ts) := by
  rw [chained_eq_groups]
  exact balanced_groups (sound_of_chained h)

theorem outline_chained {t : Text} {ts : List Text} (h : ∀ u ∈ t :: ts, Balanced u) :
    (outline (chained (t :: ts))).runs = [(t :: ts).map (Group.mk [])] ∧
      (outline (chained (t :: ts))).rest = [] := by
  have hend : nextGroup [] = none := rfl
  have ho := outline_groups (sound_of_chained h) hend
  rw [List.append_nil, ← chained_eq_groups] at ho
  have hruns : runs ((t :: ts).map (Group.mk [])) = [(t :: ts).map (Group.mk [])] := by
    refine runs_of_blank _ fun g hg ↦ ?_
    obtain ⟨u, -, rfl⟩ := List.mem_map.1 hg
    rfl
  rw [ho]
  exact ⟨hruns, rfl⟩

theorem callSite?_chained {f a : Text} (target : Option Text) (hf : isFunctionName f)
    (htrim : trim f = f) (h : ∀ u ∈ target.toList ++ [f, a], Balanced u) :
    callSite? (chained (target.toList ++ [f, a])) = some ⟨[], target, f, a, []⟩ := by
  have hattach : attaches [] = false := rfl
  cases target with
  | none =>
    obtain ⟨hruns, hrest⟩ := outline_chained h
    rw [callSite?, Option.toList_none, List.nil_append, hruns, hrest]
    simp [CallSite.ofRuns?, CallSite.ofRun?, CallSite.ofGroups?, hattach, hf, htrim]
  | some x =>
    obtain ⟨hruns, hrest⟩ := @outline_chained x [f, a] h
    rw [callSite?, Option.toList_some, List.singleton_append, hruns, hrest]
    simp [CallSite.ofRuns?, CallSite.ofRun?, CallSite.ofGroups?, hattach, hf, htrim]

theorem segmentsFrom_parenthesized {separator : Char} (hp : Role.of separator = .plain) {t : Text}
    (h : Balanced t) : segmentsFrom separator {} ('(' :: t ++ [')']) = ['(' :: t ++ [')']] := by
  have hopen : ¬(({} : Nesting).isTop && '(' = separator) := by
    intro hs
    rw [Bool.and_eq_true, decide_eq_true_eq] at hs
    rw [← hs.2] at hp
    simp [Role.of] at hp
  have hclose : ¬((Nesting.within .round).isTop && ')' = separator) := by
    simp [Nesting.within, Nesting.isTop]
  have hinner : segmentsFrom separator (.within .round) t = [t] :=
    segmentsFrom_under (balanced_iff.1 h) .round []
  have hafter : (Nesting.within .round).after t = .within .round := (h.reads rfl).after_eq
  have hnext : ({} : Nesting).next '(' = .within .round := rfl
  rw [List.cons_append, segmentsFrom_cons hopen, hnext,
    segmentsFrom_append hinner, hafter, segmentsFrom_cons hclose]
  rfl

theorem segments_chained {ts : List Text} (h : ∀ t ∈ ts, Balanced t) :
    segments ',' (chained ts) = [chained ts] := by
  induction ts with
  | nil => rfl
  | cons t ts ih =>
    have ht : segmentsFrom ',' {} ('(' :: t ++ [')']) = ['(' :: t ++ [')']] :=
      segmentsFrom_parenthesized (by decide) (h t (by simp))
    have hafter := (balanced_iff.1 ((h t (by simp)).enclosed .round)).after_eq
    have hts := ih fun u hu ↦ h u (by simp [hu])
    rw [segments] at hts
    rw [chained, List.flatMap_cons, segments, segmentsFrom_append ht]
    change List.modifyHead _ (segmentsFrom ',' (({} : Nesting).after
      (Bracket.round.opening :: t ++ [Bracket.round.closing])) (chained ts)) = _
    rw [hafter, hts]
    rfl

theorem typeOf_parenthesis {t : Text} (h : trim ('(' :: t) = '(' :: t) :
    Literal.typeOf ('(' :: t) = .any := by
  rw [Literal.typeOf, h]
  simp [Literal.trimmedType, Literal.isString, Literal.numberType, Literal.unsigned]

theorem getLast?_chained {ts : List Text} (h : ts ≠ []) : (chained ts).getLast? = some ')' := by
  obtain ⟨us, u, rfl⟩ := (List.eq_nil_or_concat ts).resolve_left h
  have hlast : chained (us.concat u) = chained us ++ ('(' :: u) ++ [')'] := by simp [chained]
  rw [hlast, List.getLast?_concat]

theorem isArgument_chained {ts : List Text} (hne : ts ≠ []) (h : ∀ t ∈ ts, Balanced t) :
    IsArgument (chained ts) := by
  obtain ⟨u, hu⟩ : ∃ u, chained ts = '(' :: u := by
    obtain ⟨t, ts, rfl⟩ := List.exists_cons_of_ne_nil hne
    exact ⟨_, rfl⟩
  have htrim : trim (chained ts) = chained ts := by
    refine trim_eq_self ?_ ?_
    · intro c hc
      rw [hu] at hc
      cases hc
      decide
    · intro c hc
      rw [getLast?_chained hne] at hc
      cases hc
      decide
  refine ⟨by simp [hu], htrim, balanced_chained h, segments_chained h, ?_, ?_⟩
  · rw [hu] at htrim ⊢
    exact typeOf_parenthesis htrim
  · rw [hu]
    simp

end Text

/-- A text that stands for itself wherever an argument can stand. What it takes to be one can be
computed, so a leaf is given by its text. -/
structure Leaf where
  text : Text
  trimmed : Text.trim text = text := by decide +kernel
  ne_nil : text ≠ [] := by decide +kernel
  balanced : Text.Balanced text := by decide +kernel
  no_comma : Text.topOffsets [','] text = [] := by decide +kernel
  no_call : Text.callSite? text = none := by decide +kernel
  untyped : Literal.typeOf text = .any := by decide +kernel
  kept : text ≠ ({} : Settings).placeholder := by decide +kernel

structure FunctionName where
  text : Text
  valid : Text.isFunctionName text := by decide +kernel
  unflagged : (Flag.split text).1 = none := by decide +kernel

/-- A function of the table takes as many arguments as it has parameters, or more where it takes
any number of them. -/
def FunctionName.Takes (f : FunctionName) (given : Nat) : Prop :=
  ∀ b, Builtin.lookup? f.text = some b →
    b.signature.params.length ≤ given ∧
      (b.signature.extra = none → given = b.signature.params.length)

instance (f : FunctionName) (given : Nat) : Decidable (f.Takes given) :=
  inferInstanceAs (Decidable (∀ b, Builtin.lookup? f.text = some b →
    b.signature.params.length ≤ given ∧
      (b.signature.extra = none → given = b.signature.params.length)))

/-- What a call is made of: a plain call, a call that binds its first argument, and a call that
is given the result of another one. -/
inductive CallTree
  | leaf (l : Leaf)
  | call (f : FunctionName) (arguments : List CallTree)
  | bind (x : Leaf) (f : FunctionName) (arguments : List CallTree)
  | pipe (t : CallTree) (f : FunctionName) (arguments : List CallTree)

namespace CallTree

def isLeaf : CallTree → Bool
  | .leaf _ => true
  | _ => false

inductive WellFormed : CallTree → Prop
  | leaf (l : Leaf) : WellFormed (.leaf l)
  | call {f : FunctionName} {arguments : List CallTree} :
      f.Takes arguments.length → (∀ a ∈ arguments, WellFormed a) → WellFormed (.call f arguments)
  | bind {x : Leaf} {f : FunctionName} {arguments : List CallTree} :
      Text.isAssignable x.text → f.Takes (arguments.length + 1) →
      (∀ a ∈ arguments, WellFormed a) → WellFormed (.bind x f arguments)
  | pipe {t : CallTree} {f : FunctionName} {arguments : List CallTree} :
      WellFormed t → ¬t.isLeaf → f.Takes (arguments.length + 1) →
      (∀ a ∈ arguments, WellFormed a) → WellFormed (.pipe t f arguments)

mutual

/-- The tree as it is written: `(f)(a, b)`, `(x)(f)(a, b)`, or another call in place of `x`. -/
def print : CallTree → Text
  | .leaf l => l.text
  | .call f arguments => Text.chained [f.text, ", ".toList.intercalate (printAll arguments)]
  | .bind x f arguments =>
    Text.chained [x.text, f.text, ", ".toList.intercalate (printAll arguments)]
  | .pipe t f arguments =>
    Text.chained [t.print, f.text, ", ".toList.intercalate (printAll arguments)]

def printAll : List CallTree → List Text
  | [] => []
  | t :: ts => t.print :: printAll ts

end

mutual

/-- The expression that a tree stands for. Only a call that is not part of another one binds in the
given mode. -/
def expr (mode : BindMode) : CallTree → Expr
  | .leaf l => .raw l.text
  | .call f arguments => .call (.ofName f.text) (exprAll arguments)
  | .bind x f arguments =>
    .bind (.raw x.text) (.call (.ofName f.text) (.raw x.text :: exprAll arguments)) mode
  | .pipe t f arguments => .call (.ofName f.text) (t.expr .inline :: exprAll arguments)

def exprAll : List CallTree → List Expr
  | [] => []
  | t :: ts => t.expr .inline :: exprAll ts

end

theorem printAll_eq_map (ts : List CallTree) : printAll ts = ts.map print := by
  induction ts with
  | nil => rfl
  | cons t ts ih => rw [printAll, ih, List.map_cons]

theorem exprAll_eq_map (ts : List CallTree) : exprAll ts = ts.map (expr .inline) := by
  induction ts with
  | nil => rfl
  | cons t ts ih => rw [exprAll, ih, List.map_cons]

end CallTree

theorem Leaf.isArgument (l : Leaf) : Text.IsArgument l.text :=
  ⟨l.ne_nil, l.trimmed, l.balanced, Text.segmentsFrom_of_topOffsets l.no_comma, l.untyped, l.kept⟩

namespace FunctionName

variable {f : FunctionName} {given : Nat}

theorem split_eq (f : FunctionName) : Flag.split f.text = (none, f.text) := by
  have hf := f.unflagged
  rw [Flag.split.eq_def] at hf ⊢
  split at hf
  · simp at hf
  · simp at hf
  · rfl

theorem trim_eq (f : FunctionName) : Text.trim f.text = f.text := by
  have hchars := Text.isNameChar_of_isFunctionName f.valid
  rw [f.split_eq] at hchars
  exact Text.trim_of_names hchars

theorem balanced (f : FunctionName) : Text.Balanced f.text := by
  have hplain := Text.plain_of_isFunctionName f.valid
  rw [f.split_eq] at hplain
  exact hplain.balanced

theorem Takes.paramCount_le (h : f.Takes given) : (Callee.ofName f.text).paramCount ≤ given := by
  rw [Callee.ofName]
  split
  · rename_i b hb
    exact (h b hb).1
  · exact Nat.zero_le _

theorem Takes.check_ok (h : f.Takes given) {ts : List Text} (hlen : ts.length = given)
    (hts : ∀ t ∈ ts, Literal.typeOf t = .any) (placeholder : Text) :
    (Callee.ofName f.text).check placeholder ts = .ok () := by
  rw [Callee.ofName]
  split
  · rename_i b hb
    obtain ⟨hleast, hmost⟩ := h b hb
    have hfits : b.signature.fits ts.length := by
      have hrequired : b.signature.required ≤ b.signature.params.length := List.countP_le_length
      rw [Signature.fits, Signature.maximum, hlen, Bool.and_eq_true]
      refine ⟨by simpa using Nat.le_trans hrequired hleast, ?_⟩
      cases hextra : b.signature.extra with
      | none => simp [hmost hextra]
      | some types => rfl
    rw [Callee.check, Signature.check, if_neg (by simp [hfits])]
    split
    · rename_i fault hfault
      obtain ⟨⟨a, i⟩, ha, hfault⟩ := List.exists_of_findSome?_eq_some hfault
      have ha := hts a (List.fst_mem_of_mem_zipIdx ha)
      simp [Signature.argumentFault, TypeSet.accepts, ha] at hfault
    · rfl
  · rfl

end FunctionName

theorem Callee.complete_eq {callee : Callee} {placeholder : Text} {given : List Argument}
    (hcount : callee.paramCount ≤ given.length) (hkept : ∀ a ∈ given, a.text ≠ placeholder) :
    callee.complete placeholder given = given.map Argument.value := by
  have hmap : given.mapIdx (fun i a ↦
      if a.text = placeholder then Expr.raw (callee.defaultAt i) else a.value) =
      given.map Argument.value := by
    rw [List.mapIdx_eq_iff]
    intro i
    rw [List.getElem?_map]
    cases ha : given[i]? with
    | none => rfl
    | some a => simp [hkept a (List.mem_of_getElem? ha)]
  rw [complete, hmap, Nat.sub_eq_zero_of_le hcount]
  simp

namespace CallTree

variable {s : Settings} {mode : BindMode}

def keptCall (mode : BindMode) (f : FunctionName) (target : Option Argument)
    (arguments : List Argument) : Expr :=
  .bound mode (.call (.ofName f.text) ((target.toList ++ arguments).map Argument.value))
    ((target.map Argument.value).filter Expr.isAssignable)

theorem ofCall_kept {f : FunctionName} {leading : Option Argument} {arguments : List Argument}
    (htakes : f.Takes (leading.toList ++ arguments).length)
    (hkept : ∀ a ∈ leading.toList ++ arguments, Text.IsArgument a.text) :
    (Expr.ofCall {} mode f.text leading arguments).outcome =
      .ok (keptCall mode f leading arguments) := by
  have hcomplete := Callee.complete_eq htakes.paramCount_le fun a ha ↦ (hkept a ha).kept
  have htyped : ∀ t ∈ (leading.toList ++ arguments).map Argument.text, Literal.typeOf t = .any := by
    intro t ht
    obtain ⟨a, ha, rfl⟩ := List.mem_map.1 ht
    exact (hkept a ha).untyped
  have hcheck := htakes.check_ok (List.length_map _) htyped ({} : Settings).placeholder
  refine Expr.ofCall_ok_iff.2 ?_
  rw [f.split_eq, hcomplete]
  exact ⟨hcheck, rfl⟩

/-- A tree is read as it is written: its text is an argument like any other, and reading it gives
its expression in every mode. -/
structure IsRead (t : CallTree) : Prop where
  isArgument : Text.IsArgument t.print
  outcome : ∀ mode, (Expr.ofText {} mode t.print).outcome = .ok (t.expr mode)

theorem isRead_leaf (l : Leaf) : IsRead (.leaf l) :=
  ⟨l.isArgument, fun _ ↦ (Expr.ofText_ok_iff_of_none l.no_call).2 ⟨fun _ ↦ l.balanced, rfl⟩⟩

def argumentsOf (ts : List CallTree) : List Argument := ts.map fun t ↦ ⟨t.print, t.expr .inline⟩

theorem values_argumentsOf (ts : List CallTree) :
    (argumentsOf ts).map Argument.value = exprAll ts := by
  rw [exprAll_eq_map, argumentsOf, List.map_map]
  rfl

theorem forall₂_argumentsOf {ts : List CallTree} (h : ∀ t ∈ ts, IsRead t) :
    List.Forall₂ (Argument.IsRead {})
      (Text.arguments (", ".toList.intercalate (printAll ts))) (argumentsOf ts) := by
  rw [printAll_eq_map, Text.arguments_intercalate]
  · rw [argumentsOf, List.forall₂_map_left_iff, List.forall₂_map_right_iff, List.forall₂_same]
    intro t ht
    exact ⟨rfl, (h t ht).outcome .inline⟩
  · intro u hu
    obtain ⟨t, ht, rfl⟩ := List.mem_map.1 hu
    exact (h t ht).isArgument

def chainTexts (f : FunctionName) (target : Option Argument) (ts : List CallTree) : List Text :=
  (target.map Argument.text).toList ++ [f.text, ", ".toList.intercalate (printAll ts)]

section

variable {f : FunctionName} {target : Option Argument} {ts : List CallTree}

theorem balanced_printAll (hts : ∀ t ∈ ts, IsRead t) :
    Text.Balanced (", ".toList.intercalate (printAll ts)) := by
  rw [printAll_eq_map]
  refine Text.Balanced.intercalate rfl fun u hu ↦ ?_
  obtain ⟨t, ht, rfl⟩ := List.mem_map.1 hu
  exact (hts t ht).isArgument.balanced

theorem balanced_chainTexts (htarget : ∀ a ∈ target, Text.IsArgument a.text)
    (hts : ∀ t ∈ ts, IsRead t) : ∀ u ∈ chainTexts f target ts, Text.Balanced u := by
  intro u hu
  rcases List.mem_append.1 hu with hu | hu
  · rw [Option.mem_toList, Option.map_eq_some_iff] at hu
    obtain ⟨a, ha, rfl⟩ := hu
    exact (htarget a ha).balanced
  · rcases List.mem_pair.1 hu with rfl | rfl
    · exact f.balanced
    · exact balanced_printAll hts

theorem ofText_chained (htakes : f.Takes (target.toList ++ argumentsOf ts).length)
    (htarget : ∀ a ∈ target, Text.IsArgument a.text ∧ Argument.IsRead {} a.text a)
    (hts : ∀ t ∈ ts, IsRead t) (mode : BindMode) :
    (Expr.ofText {} mode (Text.chained (chainTexts f target ts))).outcome =
      .ok (keptCall mode f target (argumentsOf ts)) := by
  have hbalanced := balanced_chainTexts (f := f) (fun a ha ↦ (htarget a ha).1) hts
  have hsite := Text.callSite?_chained (a := ", ".toList.intercalate (printAll ts))
    (target.map Argument.text) f.valid f.trim_eq hbalanced
  have hleading : List.Forall₂ (Argument.IsRead {})
      ((target.map Argument.text).bind fun t ↦ Text.nonempty? (Text.trim t)).toList
      target.toList := by
    cases target with
    | none => exact .nil
    | some a =>
      obtain ⟨ha, hread⟩ := htarget a rfl
      simpa [ha.trimmed, Text.nonempty?, ha.ne_nil] using hread
  have hkept : ∀ a ∈ target.toList ++ argumentsOf ts, Text.IsArgument a.text := by
    intro a ha
    rcases List.mem_append.1 ha with ha | ha
    · exact (htarget a (Option.mem_toList.1 ha)).1
    · obtain ⟨t, ht, rfl⟩ := List.mem_map.1 ha
      exact (hts t ht).isArgument
  have hread : (CallSite.read {} mode ⟨[], target.map Argument.text, f.text,
      ", ".toList.intercalate (printAll ts), []⟩).outcome =
        .ok (keptCall mode f target (argumentsOf ts)) :=
    CallSite.read_ok_iff.2 ⟨fun _ ↦ balanced_printAll hts, target, argumentsOf ts, hleading,
      forall₂_argumentsOf hts, ofCall_kept htakes hkept⟩
  refine (Expr.ofText_ok_iff hsite).2 ⟨fun _ ↦ Text.balanced_chained hbalanced, .raw [], _, hread,
    Expr.ofText_nil _ _, ?_⟩
  rw [keptCall, Expr.bound.eq_def]
  split <;> rfl

theorem isRead_of_chained {t : CallTree} (f : FunctionName) (target : Option Argument)
    (ts : List CallTree) (hprint : t.print = Text.chained (chainTexts f target ts))
    (hexpr : ∀ mode, t.expr mode = keptCall mode f target (argumentsOf ts))
    (htakes : f.Takes (target.toList.length + ts.length))
    (htarget : ∀ a ∈ target, Text.IsArgument a.text ∧ Argument.IsRead {} a.text a)
    (hts : ∀ u ∈ ts, IsRead u) : t.IsRead := by
  refine ⟨?_, fun mode ↦ ?_⟩
  · rw [hprint]
    exact Text.isArgument_chained (by simp [chainTexts])
      (balanced_chainTexts (fun a ha ↦ (htarget a ha).1) hts)
  · rw [hprint, hexpr]
    exact ofText_chained (by simpa [argumentsOf] using htakes) htarget hts mode

end

theorem not_isAssignable_of_not_isLeaf {t : CallTree} (h : ¬t.isLeaf) (mode : BindMode) :
    (t.expr mode).isAssignable = false := by
  cases t with
  | leaf l => simp [isLeaf] at h
  | _ => rfl

theorem WellFormed.isRead {t : CallTree} (h : t.WellFormed) : t.IsRead := by
  induction h with
  | leaf l => exact isRead_leaf l
  | @call f ts htakes _ ih =>
    refine isRead_of_chained f none ts rfl (fun mode ↦ ?_) (by simpa using htakes) (by simp) ih
    rw [expr, ← values_argumentsOf]
    rfl
  | @bind x f ts hx htakes _ ih =>
    refine isRead_of_chained f (some ⟨x.text, .raw x.text⟩) ts rfl (fun mode ↦ ?_)
      (by simpa [Nat.add_comm] using htakes) ?_ ih
    · have hx' : (Expr.raw x.text).isAssignable := hx
      rw [expr, ← values_argumentsOf, keptCall, Option.map_some, Option.filter_some, if_pos hx']
      rfl
    · intro a ha
      cases ha
      exact ⟨x.isArgument, rfl, (isRead_leaf x).outcome .inline⟩
  | @pipe t f ts _ hleaf htakes _ iht ih =>
    refine isRead_of_chained f (some ⟨t.print, t.expr .inline⟩) ts rfl (fun mode ↦ ?_)
      (by simpa [Nat.add_comm] using htakes) ?_ ih
    · have ht := not_isAssignable_of_not_isLeaf hleaf .inline
      rw [expr, ← values_argumentsOf, keptCall, Option.map_some, Option.filter_some,
        if_neg (by simp [ht])]
      rfl
    · intro a ha
      cases ha
      exact ⟨iht.isArgument, rfl, iht.outcome .inline⟩

/-- Reading the text of a call tree gives the expression the tree stands for. -/
theorem ofText_print (t : CallTree) (h : t.WellFormed) (mode : BindMode) :
    (Expr.ofText {} mode t.print).outcome = .ok (t.expr mode) :=
  h.isRead.outcome mode

theorem ofText_print_nested : ∃ t : CallTree, t.WellFormed ∧
    t.print = "((f)(x[0], \"(\" + s))(add)((y)(g)())".toList ∧
    (Expr.ofText {} .statement t.print).outcome = .ok (t.expr .statement) := by
  let f : FunctionName := { text := "f".toList }
  let x : Leaf := { text := "x[0]".toList }
  let y : Leaf := { text := "\"(\" + s".toList }
  have hcall : (call f [leaf x, leaf y]).WellFormed :=
    .call (by decide +kernel)
      (List.forall_mem_cons.2 ⟨.leaf x, List.forall_mem_singleton.2 (.leaf y)⟩)
  let g : FunctionName := { text := "g".toList }
  let z : Leaf := { text := "y".toList }
  have hbind : (bind z g []).WellFormed := .bind (by decide +kernel) (by decide +kernel) (by simp)
  let add : FunctionName := { text := "add".toList }
  have h : (pipe (call f [leaf x, leaf y]) add [bind z g []]).WellFormed :=
    .pipe hcall (by simp [isLeaf]) (by decide +kernel) (List.forall_mem_singleton.2 hbind)
  exact ⟨_, h, by decide +kernel, ofText_print _ h .statement⟩

end CallTree

end CallChain
