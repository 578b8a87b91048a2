import CallChain.Proofs.Chains
import CallChain.Proofs.Offsets
import CallChain.Proofs.Spans

namespace CallChain

namespace Text

variable {n m : Nesting} {start : Option Nat} {i offset : Nat} {c : Char} {t : Text} {k : Cut}

/-- The spans of the groups at top level, in one pass. The start is that of the group which is
open. -/
def scanSpans (n : Nesting) (start : Option Nat) : List (Nat × Char) → List Span
  | [] => []
  | (i, c) :: cs =>
    match n.step c with
    | .mismatch => []
    | .opened => scanSpans (n.next c) (if n.isTop && c = '(' then some i else start) cs
    | .closed =>
      if (n.next c).depth = 0 then
        (start.map fun first ↦ ⟨first, i + 1⟩).toList ++ scanSpans (n.next c) none cs
      else scanSpans (n.next c) start cs
    | _ => scanSpans (n.next c) start cs

theorem scanSpans_mismatch (h : n.step c = .mismatch) (cs : List (Nat × Char)) :
    scanSpans n start ((i, c) :: cs) = [] := by
  rw [scanSpans, h]

theorem scanSpans_inside (hopen : ¬(n.isTop && c = '(')) (hs : n.step c ≠ .mismatch)
    (hclose : start = none ∨ (n.next c).depth ≠ 0) (cs : List (Nat × Char)) :
    scanSpans n start ((i, c) :: cs) = scanSpans (n.next c) start cs := by
  rw [scanSpans]
  cases hstep : n.step c with
  | code => rfl
  | quoted => rfl
  | opened => simp only [if_neg hopen]
  | closed =>
    dsimp only
    split
    · rename_i hdepth
      rw [hclose.resolve_right (absurd hdepth)]
      rfl
    · rfl
  | mismatch => exact absurd hstep hs

theorem scanSpans_eq_nil (h : openGroupFrom n t = none) (offset : Nat) :
    scanSpans n none (indicesFrom offset t) = [] := by
  induction t generalizing n offset with
  | nil => rfl
  | cons c t ih =>
    rw [openGroupFrom] at h
    split at h
    · cases h
    · rename_i hopen
      rw [indicesFrom]
      split at h
      · exact scanSpans_mismatch ‹_› _
      · rename_i hs
        rw [scanSpans_inside hopen hs (.inl rfl)]
        exact ih (Option.map_eq_none_iff.1 h) _

theorem scanSpans_open (h : openGroupFrom n t = some k) (offset : Nat) :
    scanSpans n none (indicesFrom offset t) =
      scanSpans (.within .round) (some (offset + bytes k.before))
      (indicesFrom (offset + bytes k.before + 1) k.after) := by
  induction t generalizing n offset k with
  | nil => cases h
  | cons c t ih =>
    rw [openGroupFrom] at h
    split at h
    · rename_i hopen
      cases h
      rw [Bool.and_eq_true, Nesting.isTop_iff, decide_eq_true_iff] at hopen
      rw [hopen.1, hopen.2]
      rfl
    · rename_i hopen
      split at h
      · cases h
      · rename_i hs
        obtain ⟨k', hk, rfl⟩ := Option.map_eq_some_iff.1 h
        rw [indicesFrom, scanSpans_inside hopen hs (.inl rfl), ih hk, Cut.cons, bytes_cons,
          Nat.add_assoc]

theorem scanSpans_close (first offset : Nat) (m : Nesting) (t : Text) :
    scanSpans (m.under [.round]) (some first) (indicesFrom offset t) =
      (closeGroupFrom (m.under [.round]) t).elim [] fun k ↦
        ⟨first, offset + bytes k.before + 1⟩ ::
          scanSpans {} none (indicesFrom (offset + bytes k.before + 1) k.after) := by
  induction t generalizing m offset with
  | nil => rfl
  | cons c t ih =>
    rw [indicesFrom, closeGroupFrom]
    split
    · rename_i hclose
      rw [Bool.and_eq_true, decide_eq_true_iff, decide_eq_true_iff] at hclose
      rw [hclose.1, hclose.2]
      rfl
    · rename_i hclose
      split
      · exact scanSpans_mismatch ‹_› _
      · rename_i hs
        have hm := step_inside hs (by simpa [Bracket.closing] using hclose)
        have htop : ¬((m.under [.round]).isTop && c = '(') := by simp [Nesting.isTop]
        have hnext := Nesting.next_under hm [.round]
        have hdepth : ((m.under [.round]).next c).depth ≠ 0 := by simp [hnext, Nesting.depth]
        rw [scanSpans_inside htop hs (.inr hdepth), hnext, ih]
        cases closeGroupFrom ((m.next c).under [.round]) t with
        | none => rfl
        | some k =>
          simp only [Option.map_some, Option.elim_some, Cut.cons, bytes_cons, Nat.add_assoc]

theorem scanSpans_group (first offset : Nat) (t : Text) :
    scanSpans (.within .round) (some first) (indicesFrom offset t) =
      (closeGroup t).elim [] fun k ↦ ⟨first, offset + bytes k.before + 1⟩ ::
        scanSpans {} none (indicesFrom (offset + bytes k.before + 1) k.after) :=
  scanSpans_close first offset {} t

theorem bytes_group (g : Group) : bytes g.text = bytes g.gap + 1 + bytes g.inner + 1 := by
  have hround : '('.utf8Size = 1 ∧ ')'.utf8Size = 1 := ⟨rfl, rfl⟩
  simp only [Group.text, bytes_append, bytes_cons, bytes_nil, hround.1, hround.2]
  omega

theorem scanSpans_eq (offset : Nat) (t : Text) :
    scanSpans {} none (indicesFrom offset t) = spansFrom offset (outline t).groups := by
  cases hopen : openGroup t with
  | none =>
    rw [scanSpans_eq_nil hopen, outline_none (nextGroup_eq_none hopen)]
    rfl
  | some gap =>
    rw [scanSpans_open hopen, scanSpans_group]
    cases hclose : closeGroup gap.after with
    | none =>
      have hnext : nextGroup t = none := by
        rw [nextGroup, hopen]
        simp only [hclose]
      rw [outline_none hnext]
      rfl
    | some inner =>
      have hnext : nextGroup t = some (⟨gap.before, inner.before⟩, inner.after) := by
        rw [nextGroup, hopen]
        simp only [hclose]
      have := length_nextGroup_lt hnext
      rw [outline_some hnext, spansFrom, ← scanSpans_eq, bytes_group]
      simp only [Option.elim_some, Nat.add_assoc]
termination_by t.length

end Text

section Stretches

variable {α : Type}

def between? (first last : Nat) (l : List α) : Option (List α) :=
  if first ≤ last ∧ last ≤ l.length then some ((l.take last).drop first) else none

theorem between?_append (a b c : List α) :
    between? a.length (a ++ b).length (a ++ b ++ c) = some b := by
  have hbounds : a.length ≤ (a ++ b).length ∧ (a ++ b).length ≤ (a ++ b ++ c).length := by
    simp only [List.length_append]
    omega
  rw [between?, if_pos hbounds, List.take_left, List.drop_left]

theorem between?_tail (a : α) (l : List α) : between? 1 (a :: l).length (a :: l) = some l := by
  have h := between?_append [a] l []
  rwa [List.append_nil] at h

theorem findSomeM?_append {β : Type} {f : α → Option (Option β)} {l : List α} {o : Option β}
    (h : l.findSomeM? f = some o) (l' : List α) :
    (l ++ l').findSomeM? f = o.elim (l'.findSomeM? f) fun b ↦ some (some b) := by
  induction l with
  | nil =>
    cases h
    rfl
  | cons a l ih =>
    rw [List.findSomeM?_cons, Option.bind_eq_bind] at h
    rw [List.cons_append, List.findSomeM?_cons, Option.bind_eq_bind]
    obtain ⟨b, hb, h⟩ := Option.bind_eq_some_iff.1 h
    rw [hb, Option.bind_some]
    cases b with
    | none => exact ih h
    | some b =>
      cases h
      rfl

end Stretches

section Runs

/-- A run ends in front of a span whose gap is not blank, and behind the last span. -/
def splitsAt? (t : Text) (spans : List Span) (index : Nat) : Option Bool :=
  if index = spans.length then some true
  else do
    let last ← spans[(← Nat.psub index 1)]?
    let next ← spans[index]?
    let gap ← Text.slice? last.stop next.start t
    return !Text.isBlank gap

/-- The runs of a list of spans, from the span at `first` on, where the indices are those behind
it. -/
def spanRunsFrom? (t : Text) (spans : List Span) (first : Nat) :
    List Nat → Option (List (List Span))
  | [] => some []
  | index :: indices => do
    if ← splitsAt? t spans index then
      let run ← between? first index spans
      let rest ← spanRunsFrom? t spans index indices
      return run :: rest
    else spanRunsFrom? t spans first indices

def spanRuns? (t : Text) (spans : List Span) : Option (List (List Span)) :=
  spanRunsFrom? t spans 0 (List.range' 1 spans.length)

def runSpansFrom (offset : Nat) : List Run → List (List Span)
  | [] => []
  | r :: rs => spansFrom offset r :: runSpansFrom (offset + Text.bytes r.text) rs

/-- Groups in front of runs are part of the first one if that has a blank gap in front. -/
def Run.join (r : Run) : List Run → List Run
  | [] => [r]
  | r' :: rs => if r'.head?.any (Text.isBlank ·.gap) then (r ++ r') :: rs else r :: r' :: rs

theorem runs_cons (g : Group) (gs : List Group) : runs (g :: gs) = Run.join [g] (runs gs) := by
  rw [runs]
  cases runs gs with
  | nil => rfl
  | cons r rs => rfl

theorem Run.join_runs_cons (r : Run) (g : Group) (gs : List Group) :
    r.join (runs (g :: gs)) =
      if Text.isBlank g.gap then (r ++ [g]).join (runs gs) else r :: Run.join [g] (runs gs) := by
  obtain ⟨r', rs, hr⟩ := exists_runs_cons g gs
  have hjoin : Run.join [g] (runs gs) = (g :: r') :: rs := by rw [← runs_cons, hr]
  have hlong : (r ++ [g]).join (runs gs) = (r ++ g :: r') :: rs := by
    cases hgs : runs gs with
    | nil =>
      rw [hgs] at hjoin
      cases hjoin
      rfl
    | cons r'' rs' =>
      rw [hgs, Run.join] at hjoin
      rw [Run.join]
      split at hjoin
      · rename_i hblank
        cases hjoin
        rw [if_pos hblank, List.append_assoc]
        rfl
      · rename_i hblank
        cases hjoin
        rw [if_neg hblank]
  rw [hr, hlong, hjoin, Run.join]
  rfl

theorem getElem?_spansFrom (offset : Nat) (gs : List Group) (g : Group) (gs' : List Group) :
    (spansFrom offset (gs ++ g :: gs'))[gs.length]? =
      some ⟨offset + Text.bytes (gs.flatMap Group.text ++ g.gap),
        offset + Text.bytes (gs.flatMap Group.text ++ g.text)⟩ := by
  rw [spansFrom_append, List.getElem?_append_right (by rw [length_spansFrom]), length_spansFrom,
    Nat.sub_self, spansFrom, Text.bytes_append, Text.bytes_append, ← Nat.add_assoc, ← Nat.add_assoc]
  rfl

theorem between?_spansFrom (offset : Nat) (a b c : List Group) :
    between? a.length (a ++ b).length (spansFrom offset (a ++ b ++ c)) =
      some (spansFrom (offset + Text.bytes (a.flatMap Group.text)) b) := by
  have h := between?_append (spansFrom offset a)
    (spansFrom (offset + Text.bytes (a.flatMap Group.text)) b)
    (spansFrom (offset + Text.bytes ((a ++ b).flatMap Group.text)) c)
  rwa [← spansFrom_append, ← spansFrom_append, length_spansFrom, length_spansFrom] at h

theorem splitsAt?_length (t : Text) (spans : List Span) :
    splitsAt? t spans spans.length = some true :=
  if_pos rfl

theorem getElem?_last_spansFrom {gs : List Group} (hgs : gs ≠ []) (gs' : List Group) :
    ∃ start, (spansFrom 0 (gs ++ gs'))[gs.length - 1]? =
      some ⟨start, Text.bytes (gs.flatMap Group.text)⟩ := by
  obtain ⟨gs, last, rfl⟩ := (List.eq_nil_or_concat gs).resolve_left hgs
  have h := getElem?_spansFrom 0 gs last gs'
  have hstop : (gs.concat last).flatMap Group.text = gs.flatMap Group.text ++ last.text := by simp
  rw [List.append_cons, ← List.concat_eq_append, Nat.zero_add, Nat.zero_add, ← hstop] at h
  rw [List.length_concat, Nat.add_sub_cancel]
  exact ⟨_, h⟩

theorem splitsAt?_spansFrom {gs : List Group} (hgs : gs ≠ []) (g : Group) (gs' : List Group)
    (rest : Text) :
    splitsAt? ((gs ++ g :: gs').flatMap Group.text ++ rest) (spansFrom 0 (gs ++ g :: gs'))
        gs.length =
      some !Text.isBlank g.gap := by
  have hne : gs.length ≠ (spansFrom 0 (gs ++ g :: gs')).length := by
    rw [length_spansFrom, List.length_append, List.length_cons]
    omega
  have hnext := getElem?_spansFrom 0 gs g gs'
  have hslice := Text.slice?_append (gs.flatMap Group.text) g.gap
    ('(' :: g.inner ++ [')'] ++ (gs'.flatMap Group.text ++ rest))
  have htext : gs.flatMap Group.text ++
      (g.gap ++ ('(' :: g.inner ++ [')'] ++ (gs'.flatMap Group.text ++ rest))) =
        (gs ++ g :: gs').flatMap Group.text ++ rest := by
    simp [Group.text]
  obtain ⟨start, hlast⟩ := getElem?_last_spansFrom hgs (g :: gs')
  rw [htext] at hslice
  rw [splitsAt?, if_neg hne, Nat.psub_eq_sub (List.length_pos_of_ne_nil hgs), hnext]
  simp only [Option.bind_eq_bind, Option.bind_some, hlast, Nat.zero_add, hslice]
  rfl

/-- The loop over the spans, where the groups in front of `run` are in runs already, `run` is the
run that has not ended yet, and `gs` are the groups behind it. -/
theorem spanRunsFrom?_eq (seen run gs : List Group) (rest : Text) (hrun : run ≠ []) :
    spanRunsFrom? ((seen ++ run ++ gs).flatMap Group.text ++ rest) (spansFrom 0 (seen ++ run ++ gs))
        seen.length (List.range' (seen ++ run).length (gs.length + 1)) =
      some (runSpansFrom (Text.bytes (seen.flatMap Group.text)) (Run.join run (runs gs))) := by
  induction gs generalizing seen run with
  | nil =>
    have hlast :=
      splitsAt?_length ((seen ++ run).flatMap Group.text ++ rest) (spansFrom 0 (seen ++ run))
    have hbetween := between?_spansFrom 0 seen run []
    rw [List.append_nil, Nat.zero_add] at hbetween
    rw [length_spansFrom] at hlast
    rw [List.range'_succ, spanRunsFrom?, List.append_nil, hlast, Option.bind_eq_bind,
      Option.bind_some, if_pos rfl, hbetween]
    rfl
  | cons g gs ih =>
    have hne : seen ++ run ≠ [] := List.append_ne_nil_of_right_ne_nil _ hrun
    rw [List.range'_succ, spanRunsFrom?, splitsAt?_spansFrom hne, Option.bind_eq_bind,
      Option.bind_some, Run.join_runs_cons]
    have htext : seen ++ run ++ [g] ++ gs = seen ++ run ++ g :: gs := by rw [List.append_assoc]; rfl
    have hlength : (seen ++ run ++ [g]).length = (seen ++ run).length + 1 := by
      rw [List.length_append]
      rfl
    by_cases hblank : Text.isBlank g.gap
    · have hnext := ih seen (run ++ [g]) (by simp)
      rw [← List.append_assoc seen, htext, hlength] at hnext
      rw [hblank, if_pos rfl]
      exact hnext
    · have hnext := ih (seen ++ run) [g] (by simp)
      have hbetween := between?_spansFrom 0 seen run (g :: gs)
      have hoffset : Text.bytes ((seen ++ run).flatMap Group.text) =
          Text.bytes (seen.flatMap Group.text) + Text.bytes (Run.text run) := by
        rw [List.flatMap_append, Text.bytes_append]
        rfl
      rw [htext, hlength, hoffset] at hnext
      rw [Bool.eq_false_iff.2 hblank, if_neg Bool.false_ne_true, Bool.not_false, if_pos rfl,
        hbetween, Nat.zero_add]
      simp only [Option.bind_eq_bind, Option.bind_some, List.length_cons, hnext]
      rfl

/-- The runs of the spans of a text are the spans of its runs. -/
theorem spanRuns?_eq (gs : List Group) (rest : Text) :
    spanRuns? (gs.flatMap Group.text ++ rest) (spansFrom 0 gs) =
      some (runSpansFrom 0 (runs gs)) := by
  cases gs with
  | nil => rfl
  | cons g gs =>
    have h := spanRunsFrom?_eq [] [g] gs rest (by simp)
    rw [← runs_cons] at h
    rw [spanRuns?, length_spansFrom]
    exact h

end Runs

namespace Text

def attached? (t : Text) (start : Nat) : Option Bool := do
  let before ← sliceTo? start t
  match before.getLast? with
  | none => return false
  | some c =>
    if c ∈ [']', '}', '"', '\'', '.'] then return true
    else if isIdentChar c then return !isKeyword (← lastWord? before)
    else return false

theorem attached?_append (s t : Text) : attached? (s ++ t) (bytes s) = some (attaches s) := by
  rw [attached?, sliceTo?_append, Option.bind_eq_bind, Option.bind_some, attaches]
  cases hc : s.getLast? with
  | none => rfl
  | some c =>
    dsimp only
    by_cases hmark : c ∈ [']', '}', '"', '\'', '.']
    · rw [if_pos hmark, decide_eq_true hmark, Bool.true_or]
      rfl
    · rw [if_neg hmark, decide_eq_false hmark, Bool.false_or]
      by_cases hident : isIdentChar c
      · rw [if_pos hident, lastWord?_eq (by rw [hc]; exact hident), hident, Bool.true_and]
        rfl
      · rw [if_neg hident, Bool.eq_false_iff.2 hident, Bool.false_and]
        rfl

end Text

theorem Span.inner?_append (s : Text) (g : Group) (t : Text) :
    inner? ⟨Text.bytes s + Text.bytes g.gap, Text.bytes s + Text.bytes g.text⟩
        (s ++ (g.text ++ t)) =
      some g.inner := by
  refine Text.slice?_eq_some_iff.2 ⟨s ++ g.gap ++ ['('], ')' :: t, by simp [Group.text], ?_, ?_⟩
  · simp only [Text.bytes_append]
    rfl
  · have hround : Text.bytes ['('] = 1 := rfl
    simp only [Text.bytes_append, Text.bytes_group, hround]
    omega

namespace CallSite

def within (front back : Text) (site : CallSite) : CallSite :=
  { site with before := front ++ site.before, after := back }

/-- The call that the groups at the spans make. -/
def ofSpans? (t : Text) (run : List Span) : Option (Option CallSite) :=
  if 2 ≤ run.length ∧ run.length ≤ 3 then do
    let name ← run[(← Nat.psub run.length 2)]?
    let function := Text.trim (← name.inner? t)
    if Text.isFunctionName function then
      let first ← run[0]?
      let last ← run[(← Nat.psub run.length 1)]?
      let before ← Text.sliceTo? first.start t
      let arguments ← last.inner? t
      let after ← Text.sliceFrom? last.stop t
      let target ← if run.length = 3 then some <$> first.inner? t else some none
      return some ⟨before, target, function, arguments, after⟩
    else return none
  else some none

theorem slices_around (front : Text) (g : Group) (t : Text) :
    Text.sliceTo? (Text.bytes front + Text.bytes g.gap) (front ++ (g.text ++ t)) =
      some (front ++ g.gap) ∧
      Text.sliceFrom? (Text.bytes front + Text.bytes g.text) (front ++ (g.text ++ t)) = some t := by
  have hbefore := Text.sliceTo?_append (front ++ g.gap) ('(' :: g.inner ++ [')'] ++ t)
  have hafter := Text.sliceFrom?_append (front ++ g.text) t
  rw [Text.bytes_append] at hbefore hafter
  refine ⟨?_, by rwa [List.append_assoc] at hafter⟩
  rw [← hbefore]
  simp [Group.text]

theorem ofSpans?_two (front : Text) (f a : Group) (back : Text) :
    ofSpans? (front ++ Run.text [f, a] ++ back) (spansFrom (Text.bytes front) [f, a]) =
      some ((ofGroups? [f, a]).map (within front back)) := by
  have htext : front ++ Run.text [f, a] ++ back = front ++ (f.text ++ (a.text ++ back)) := by
    simp [Run.text]
  have hname := Span.inner?_append front f (a.text ++ back)
  have hbefore := (slices_around front f (a.text ++ back)).1
  have hlast := Span.inner?_append (front ++ f.text) a back
  have hafter := (slices_around (front ++ f.text) a back).2
  rw [List.append_assoc, Text.bytes_append] at hlast hafter
  rw [htext, ofSpans?, ofGroups?]
  by_cases hfunction : Text.isFunctionName (Text.trim f.inner)
  · simp [spansFrom, Nat.psub_eq_sub, hname, hbefore, hlast, hafter, hfunction, within]
  · simp [spansFrom, Nat.psub_eq_sub, hname, hfunction]

theorem ofSpans?_three (front : Text) (t f a : Group) (back : Text) :
    ofSpans? (front ++ Run.text [t, f, a] ++ back) (spansFrom (Text.bytes front) [t, f, a]) =
      some ((ofGroups? [t, f, a]).map (within front back)) := by
  have htext : front ++ Run.text [t, f, a] ++ back =
      front ++ (t.text ++ (f.text ++ (a.text ++ back))) := by
    simp [Run.text]
  have htarget := Span.inner?_append front t (f.text ++ (a.text ++ back))
  have hbefore := (slices_around front t (f.text ++ (a.text ++ back))).1
  have hname := Span.inner?_append (front ++ t.text) f (a.text ++ back)
  have hlast := Span.inner?_append (front ++ t.text ++ f.text) a back
  have hafter := (slices_around (front ++ t.text ++ f.text) a back).2
  simp only [List.append_assoc, Text.bytes_append, ← Nat.add_assoc] at hname hlast hafter
  rw [htext, ofSpans?, ofGroups?]
  by_cases hfunction : Text.isFunctionName (Text.trim f.inner)
  · simp [spansFrom, Nat.psub_eq_sub, htarget, hbefore, hname, hlast, hafter, hfunction, within]
  · simp [spansFrom, Nat.psub_eq_sub, hname, hfunction]

theorem ofSpans?_eq (front : Text) (gs : List Group) (back : Text) :
    ofSpans? (front ++ Run.text gs ++ back) (spansFrom (Text.bytes front) gs) =
      some ((ofGroups? gs).map (within front back)) := by
  rcases gs with _ | ⟨t, _ | ⟨f, _ | ⟨a, _ | ⟨g, gs⟩⟩⟩⟩
  · rfl
  · rfl
  · exact ofSpans?_two front t f back
  · exact ofSpans?_three front t f a back
  · rw [ofSpans?, if_neg (by simp [length_spansFrom])]
    rfl

def ofSpanRun? (t : Text) (run : List Span) : Option (Option CallSite) := do
  let run ← match run.head? with
    | none => some run
    | some first => do
      if ← Text.attached? t first.start then between? 1 run.length run else some run
  ofSpans? t run

theorem ofSpanRun?_eq (front : Text) {r : Run}
    (h : ∀ g ∈ r.head?, Text.attaches (front ++ g.gap) = Text.attaches g.gap) (back : Text) :
    ofSpanRun? (front ++ r.text ++ back) (spansFrom (Text.bytes front) r) =
      some ((ofRun? r).map (within front back)) := by
  cases r with
  | nil => rfl
  | cons g gs =>
    have hattached := Text.attached?_append (front ++ g.gap)
      ('(' :: g.inner ++ [')'] ++ (Run.text gs ++ back))
    have htext : front ++ Run.text (g :: gs) ++ back =
        front ++ g.gap ++ ('(' :: g.inner ++ [')'] ++ (Run.text gs ++ back)) := by
      simp [Run.text, Group.text]
    rw [← htext, h g rfl, Text.bytes_append] at hattached
    rw [ofSpanRun?, ofRun?]
    simp only [spansFrom, List.head?_cons, hattached, Option.bind_eq_bind, Option.bind_some]
    by_cases hbelongs : Text.attaches g.gap
    · have hrest := ofSpans?_eq (front ++ g.text) gs back
      have htail : front ++ g.text ++ Run.text gs ++ back =
          front ++ Run.text (g :: gs) ++ back := by
        simp [Run.text]
      have hwithin : within front back ∘ behind g.text = within (front ++ g.text) back := by
        funext s
        simp [within, behind]
      rw [htail, Text.bytes_append] at hrest
      rw [if_pos hbelongs, if_pos hbelongs, between?_tail, Option.bind_some, Option.map_map,
        hwithin, hrest]
    · rw [if_neg hbelongs, if_neg hbelongs]
      exact ofSpans?_eq front (g :: gs) back

def ofSpanRuns? (t : Text) (runs : List (List Span)) : Option (Option CallSite) :=
  runs.reverse.findSomeM? (ofSpanRun? t)

theorem ofSpanRuns?_eq (seen : List Run) {rs : List Run} (h : AreRuns (seen ++ rs)) (rest : Text) :
    ofSpanRuns? ((seen ++ rs).flatMap Run.text ++ rest)
        (runSpansFrom (Text.bytes (seen.flatMap Run.text)) rs) =
      some ((ofRuns? rest rs).map (behind (seen.flatMap Run.text))) := by
  induction rs generalizing seen with
  | nil => rfl
  | cons r rs ih =>
    have hseen : seen ++ [r] ++ rs = seen ++ r :: rs := by rw [List.append_assoc]; rfl
    have hlater := ih (seen ++ [r]) (by rwa [hseen])
    have hrun := ofSpanRun?_eq (seen.flatMap Run.text) h.attaches_eq (rs.flatMap Run.text ++ rest)
    have htext : seen.flatMap Run.text ++ r.text ++ (rs.flatMap Run.text ++ rest) =
        (seen ++ r :: rs).flatMap Run.text ++ rest := by simp
    have hconcat : (seen ++ [r]).flatMap Run.text = seen.flatMap Run.text ++ r.text := by simp
    rw [hseen, hconcat, Text.bytes_append, ofSpanRuns?] at hlater
    rw [htext] at hrun
    rw [ofSpanRuns?, runSpansFrom, List.reverse_cons, findSomeM?_append hlater, ofRuns?]
    cases ofRuns? rest rs with
    | none =>
      rw [Option.map_none, Option.elim_none, List.findSomeM?_cons, hrun]
      cases ofRun? r with
      | none => rfl
      | some s => rfl
    | some s => simp [behind]

end CallSite

def Text.callSiteBySpans? (t : Text) : Option (Option CallSite) := do
  let spans := scanSpans {} none (charIndices t)
  CallSite.ofSpanRuns? t (← spanRuns? t spans)

theorem Text.callSiteBySpans?_eq (t : Text) : callSiteBySpans? t = some (callSite? t) := by
  have hspans : scanSpans {} none (charIndices t) = spansFrom 0 (outline t).groups :=
    scanSpans_eq 0 t
  have hruns := spanRuns?_eq (outline t).groups (outline t).rest
  have hsite := CallSite.ofSpanRuns?_eq [] (areRuns_outline t) (outline t).rest
  have htext : (outline t).groups.flatMap Group.text ++ (outline t).rest = t := outline_text t
  have hbehind : CallSite.behind [] = id := rfl
  rw [htext] at hruns
  rw [List.nil_append, runs_text, htext, List.flatMap_nil, hbehind, Option.map_id] at hsite
  rw [callSiteBySpans?, hspans, hruns]
  exact hsite

end CallChain
