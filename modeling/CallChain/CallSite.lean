import CallChain.Fault
import CallChain.Group
import CallChain.Text.Identifier

namespace CallChain

/-- A mark before a function name that changes what the call binds: `!` binds the first argument,
`?` binds nothing. -/
inductive Flag
  | bindFirst
  | discard
  deriving DecidableEq, Repr

def Flag.split : Text → Option Flag × Text
  | '!' :: t => (some .bindFirst, t)
  | '?' :: t => (some .discard, t)
  | t => (none, t)

namespace Text

/-- A dotted name, with a flag in front or none. -/
def isFunctionName (t : Text) : Bool :=
  let name := (Flag.split t).2
  startsIdent name && name.all (fun c ↦ isIdentChar c || c = '.') && name.getLast? != some '.'

/-- A group right after this text is the argument list of an ordinary call or index. -/
def attaches (t : Text) : Bool :=
  match t.getLast? with
  | none => false
  | some c => c ∈ [']', '}', '"', '\'', '.'] || isIdentChar c && !isKeyword (lastWord t)

end Text

/-- A call `(function)(arguments)`, or `(target)(function)(arguments)`, and the text around it. -/
structure CallSite where
  before : Text
  target : Option Text
  function : Text
  arguments : Text
  after : Text
  deriving DecidableEq, Repr

namespace CallSite

def size (s : CallSite) : Nat :=
  s.before.length + (s.target.getD []).length + s.arguments.length + s.after.length

def behind (t : Text) (s : CallSite) : CallSite := { s with before := t ++ s.before }

def ofGroups? : List Group → Option CallSite
  | [f, a] =>
    let function := Text.trim f.inner
    if Text.isFunctionName function then some ⟨f.gap, none, function, a.inner, []⟩ else none
  | [t, f, a] =>
    let function := Text.trim f.inner
    if Text.isFunctionName function then some ⟨t.gap, some t.inner, function, a.inner, []⟩ else none
  | _ => none

/-- The call that a run makes. A first group that belongs to the text before it is no part of it. -/
def ofRun? : Run → Option CallSite
  | [] => none
  | g :: gs =>
    if Text.attaches g.gap then (ofGroups? gs).map (behind g.text) else ofGroups? (g :: gs)

/-- The call of the last run that makes one, in the text that the runs and the rest spell out. -/
def ofRuns? (rest : Text) : List Run → Option CallSite
  | [] => none
  | r :: rs =>
    match ofRuns? rest rs with
    | some s => some (s.behind r.text)
    | none => (ofRun? r).map fun s ↦ { s with after := rs.flatMap Run.text ++ rest }

@[simp] theorem size_behind (t : Text) (s : CallSite) : (s.behind t).size = t.length + s.size := by
  simp only [size, behind, List.length_append]
  omega

theorem ofGroups?_size {groups : List Group} {s : CallSite} (h : ofGroups? groups = some s) :
    s.size + 4 ≤ (Run.text groups).length ∧ s.after = [] := by
  rw [ofGroups?.eq_def] at h
  split at h <;> try contradiction
  all_goals
    dsimp only at h
    split at h <;> try contradiction
    cases h
    simp only [size, Run.text, Group.text, List.flatMap_cons, List.flatMap_nil, List.length_append,
      List.length_cons, List.length_nil, Option.getD_none, Option.getD_some, and_true]
    omega

theorem ofRun?_size {run : Run} {s : CallSite} (h : ofRun? run = some s) :
    s.size + 4 ≤ run.text.length ∧ s.after = [] := by
  rw [ofRun?.eq_def] at h
  split at h
  · contradiction
  · split at h
    · obtain ⟨s', hs, rfl⟩ := Option.map_eq_some_iff.1 h
      have hs' := ofGroups?_size hs
      rw [Run.text] at hs' ⊢
      rw [List.flatMap_cons, List.length_append, size_behind]
      exact ⟨by omega, hs'.2⟩
    · exact ofGroups?_size h

theorem ofRuns?_size {rest : Text} {runs : List Run} {s : CallSite}
    (h : ofRuns? rest runs = some s) :
    s.size + 4 ≤ (runs.flatMap Run.text).length + rest.length := by
  induction runs generalizing s with
  | nil => simp [ofRuns?] at h
  | cons r rs ih =>
    rw [ofRuns?] at h
    rw [List.flatMap_cons, List.length_append]
    split at h
    · rename_i s' hs
      cases h
      have := ih hs
      rw [size_behind]
      omega
    · obtain ⟨s', hs, rfl⟩ := Option.map_eq_some_iff.1 h
      obtain ⟨hsize, hafter⟩ := ofRun?_size hs
      simp only [size, hafter, List.length_nil, List.length_append] at hsize ⊢
      omega

end CallSite

def Text.callSite? (t : Text) : Option CallSite :=
  let o := Text.outline t
  CallSite.ofRuns? o.rest o.runs

theorem Text.callSite?_size {t : Text} {s : CallSite} (h : Text.callSite? t = some s) :
    s.size + 4 ≤ t.length := by
  have := CallSite.ofRuns?_size h
  rwa [← List.length_append, Outline.runs_text, outline_text] at this

namespace Text

def arguments (t : Text) : List Text := ((segments ',' t).map trim).filter (!·.isEmpty)

theorem length_le_of_mem_arguments {t a : Text} (h : a ∈ arguments t) : a.length ≤ t.length := by
  obtain ⟨s, hs, rfl⟩ := List.mem_map.1 (List.mem_filter.1 h).1
  exact Nat.le_trans (length_trim_le s) (length_le_of_mem_segmentsFrom hs)

def balancedArguments (t : Text) : Except Fault (List Text) :=
  match imbalance? t with
  | some i => .error (.malformed t (.arguments i))
  | none => .ok (arguments t)

end Text

end CallChain
