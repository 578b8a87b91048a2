import CallChain.Proofs.BlockMarks
import CallChain.Proofs.Contexts

namespace CallChain

namespace Text

variable {s t : Text}

/-- The text without the blanks outside brackets and strings. -/
def bareFrom (n : Nesting) : Text → Text
  | [] => []
  | c :: t =>
    if n.isTop && CallChain.isBlank c then bareFrom (n.next c) t else c :: bareFrom (n.next c) t

def bare (t : Text) : Text := bareFrom {} t

theorem bareFrom_append (n : Nesting) (s t : Text) :
    bareFrom n (s ++ t) = bareFrom n s ++ bareFrom (n.after s) t := by
  induction s generalizing n with
  | nil => rfl
  | cons c s ih =>
    rw [List.cons_append, bareFrom, bareFrom, ih, Nesting.after_cons]
    split <;> rfl

theorem Balanced.bare_append (hs : Balanced s) (t : Text) : bare (s ++ t) = bare s ++ bare t := by
  rw [bare, bareFrom_append, (balanced_iff.1 hs).after_eq]
  rfl

theorem bare_of_isBlank (h : isBlank t) : bare t = [] := by
  induction t with
  | nil => rfl
  | cons c t ih =>
    obtain ⟨hc, ht⟩ := Bool.and_eq_true_iff.1 h
    have hnext : ({} : Nesting).next c = {} := Nesting.next_plain rfl (Role.of_blank hc)
    have htop : (({} : Nesting).isTop && CallChain.isBlank c) = true := hc
    rw [bare, bareFrom, if_pos htop, hnext]
    exact ih ht

theorem bare_trim (h : Balanced t) : bare (trim t) = bare t := by
  obtain ⟨lead, trail, htext, hlead, htrail⟩ := exists_blanks t
  calc bare (trim t) = bare lead ++ (bare (trim t) ++ bare trail) := by
        rw [bare_of_isBlank hlead, bare_of_isBlank htrail, List.nil_append, List.append_nil]
    _ = bare (lead ++ (trim t ++ trail)) := by
        rw [(plain_of_isBlank hlead).balanced.bare_append, (balanced_trim.2 h).bare_append]
    _ = bare t := by rw [← htext]

theorem bare_sides {before after needle needle' : Text} (hbefore : Balanced before)
    (hafter : Balanced after) (hneedle : Balanced needle) (hneedle' : Balanced needle')
    (h : bare needle' = bare needle) :
    bare (trim before ++ needle' ++ trim after) = bare (before ++ needle ++ after) := by
  have htrim := balanced_trim.2 hbefore
  rw [(htrim.append hneedle').bare_append, htrim.bare_append, (hbefore.append hneedle).bare_append,
    hbefore.bare_append, bare_trim hbefore, bare_trim hafter, h]

theorem bare_mark {head : Text} (h : Balanced t) (hhead : head ++ [blockMark] = trim t) :
    bare head ++ [blockMark] = bare t := by
  have hbalanced : Balanced head := by
    rw [← balanced_mark, hhead]
    exact balanced_trim.2 h
  rw [← bare_trim h, ← hhead, hbalanced.bare_append]
  rfl

theorem bare_guardTest (h : Balanced t) :
    bare (guardTest t) ++ (if (trim t).getLast? = some blockMark then [blockMark] else []) =
      bare t := by
  rw [guardTest]
  cases hmark : dropMark? (trim t) with
  | none =>
    have hlast : (trim t).getLast? ≠ some blockMark := by
      intro hlast
      simp [dropMark?, hlast] at hmark
    rw [Option.getD_none, trim_trim, if_neg hlast, List.append_nil, bare_trim h]
  | some head =>
    have htext := dropMark?_text hmark
    have hhead : Balanced head := by
      rw [← balanced_mark, htext]
      exact balanced_trim.2 h
    have hlast : (trim t).getLast? = some blockMark := by
      rw [← htext]
      exact List.getLast?_concat
    rw [Option.getD_some, if_pos hlast, bare_trim hhead, bare_mark h htext]

end Text

def Expr.isText : Expr → Bool
  | .raw _ | .concat _ => true
  | _ => false

/-- No call, no binding and no range stands anywhere in the statement. -/
def Statement.IsOrdinary (st : Statement) : Prop :=
  ∀ (slot : Slot) (e : Expr), st = slot.plug e → ∀ d ∈ e.nodes, d.isText

theorem Expr.eq_raw_of_ordinary {s : Settings} {mode : BindMode} {text : Text} {e : Expr}
    (h : (ofText s mode text).outcome = .ok e) (hordinary : ∀ d ∈ e.nodes, d.isText) :
    e = .raw text := by
  obtain ⟨hwell, hraw⟩ := wellFormed_of_ofText h
  refine hraw (hwell.isRaw_iff.2 fun hcall ↦ ?_)
  obtain ⟨d, hd, hdcall⟩ := hasCall_iff.1 hcall
  have htext := hordinary d hd
  cases d <;> simp [isText, isCall] at htext hdcall

namespace Statement

variable {s : Settings} {code : Text} {st : Statement}

theorem bare_loop {rest target iterable : Text}
    (hrest : Text.afterWord? "for".toList code = some rest)
    (hparts : Text.loopParts? rest = some (target, iterable)) (hi : Text.Balanced iterable) :
    Text.bare (loop target (.raw iterable)).python = Text.bare code := by
  obtain ⟨htarget, hcode⟩ := loop_balanced hrest hparts hi
  obtain ⟨head, k, hhead, hk, rfl, rfl, -, -⟩ := Text.loopParts?_cases hparts
  have hword : Text.Balanced "for".toList := by decide
  have hfor : Text.Balanced "for ".toList := by decide
  have hin : Text.Balanced " in ".toList := by decide
  have htext := Text.afterWord?_text hrest
  have hbalanced : Text.Balanced rest := by
    rw [← Text.balanced_append_iff hword, htext]
    exact hcode
  have hsides := Text.bare_sides (Text.balanced_trim.1 htarget) (Text.balanced_trim.1 hi) hin hin
    rfl
  have hwritten : Text.Balanced (Text.trim k.before ++ " in ".toList ++ Text.trim k.after) :=
    (htarget.append hin).append hi
  have hline : (loop (Text.trim k.before) (.raw (Text.trim k.after))).python = "for ".toList ++
      (Text.trim k.before ++ " in ".toList ++ Text.trim k.after ++ [blockMark]) := by
    change "for ".toList ++ Text.trim k.before ++ " in ".toList ++ Text.trim k.after ++ [':'] = _
    simp only [List.append_assoc]
    rfl
  calc Text.bare (loop (Text.trim k.before) (.raw (Text.trim k.after))).python
      = "for".toList ++ (Text.bare head ++ [blockMark]) := by
        rw [hline, hfor.bare_append, hwritten.bare_append, hsides, Text.cutFirst_text hk]
        rfl
    _ = "for".toList ++ Text.bare rest := by rw [Text.bare_mark hbalanced hhead]
    _ = Text.bare code := by
        rw [← htext, hword.bare_append]
        rfl

theorem getLast?_guardRest (hcode : Text.trim code = code) {guard : Guard} {rest : Text}
    (hrest : Text.afterWord? guard.keyword code = some rest) :
    (Text.trim rest).getLast? = some blockMark ↔ code.getLast? = some blockMark := by
  have htext := Text.afterWord?_text hrest
  have hsuffix : rest <:+ code := ⟨_, htext⟩
  by_cases hnil : Text.trim rest = []
  · rw [hnil, ← htext, Text.eq_nil_of_suffix hcode hsuffix hnil, List.append_nil]
    cases guard <;> decide
  · rw [Text.getLast?_trim_of_suffix hcode hsuffix hnil]

theorem bare_guarded (hcode : Text.trim code = code) {guard : Guard} {rest : Text}
    (hrest : Text.afterWord? guard.keyword code = some rest)
    (htest : Text.Balanced (Text.guardTest rest)) :
    Text.bare (guarded guard (.raw (Text.guardTest rest))).python =
      Text.bare code ++ if code.getLast? = some blockMark then [] else [blockMark] := by
  have hkeyword : Text.Balanced guard.keyword := by cases guard <;> decide
  have hword : Text.bare guard.keyword = guard.keyword := by cases guard <;> decide
  have hbare := Text.bare_guardTest (Text.balanced_guardTest.1 htest)
  simp only [getLast?_guardRest hcode hrest] at hbare
  have hblank : Text.Balanced [' '] := by decide
  have hline : (guarded guard (.raw (Text.guardTest rest))).python =
      guard.keyword ++ ([' '] ++ (Text.guardTest rest ++ [blockMark])) := by
    change guard.keyword ++ ' ' :: Text.guardTest rest ++ [':'] = _
    rw [List.append_assoc]
    rfl
  calc Text.bare (guarded guard (.raw (Text.guardTest rest))).python
      = guard.keyword ++ (Text.bare (Text.guardTest rest) ++ [blockMark]) := by
        rw [hline, hkeyword.bare_append, hblank.bare_append, htest.bare_append, hword]
        rfl
    _ = guard.keyword ++ (Text.bare rest ++
          if code.getLast? = some blockMark then [] else [blockMark]) := by
        rw [← hbare]
        split <;> simp
    _ = Text.bare code ++ if code.getLast? = some blockMark then [] else [blockMark] := by
        rw [← Text.afterWord?_text hrest, hkeyword.bare_append, hword, List.append_assoc]

theorem bare_assign {target value : Text} (hcode : Text.Balanced code)
    (hsides : Text.assignment? code = some (target, value)) :
    Text.bare (assign target (.raw value)).python = Text.bare code := by
  obtain ⟨k, hk, rfl, rfl⟩ := Text.assignment?_cases hsides
  obtain ⟨hbefore, hafter⟩ := Text.cutFirst_balanced hk (by decide) hcode
  have hequals : Text.bare " = ".toList = Text.bare "=".toList := by decide
  calc Text.bare (assign (Text.trim k.before) (.raw (Text.trim k.after))).python
      = Text.bare (k.before ++ "=".toList ++ k.after) :=
        Text.bare_sides hbefore hafter (by decide) (by decide) hequals
    _ = Text.bare code := by rw [Text.cutFirst_text hk]

theorem bare_of_not_guard (hs : s.strictBrackets) (hguard : ¬Text.startsGuard code)
    (h : (ofCode s code).outcome = .ok st) (hst : st.IsOrdinary) :
    Text.bare st.python = Text.bare code := by
  rw [ofCode] at h
  obtain ⟨rest, target, iterable, hrest, hparts, heq⟩ | ⟨guard, rest, -, heq⟩ | ⟨-, heq⟩ | heq :=
    Heading.ofCode_cases code
  · rw [heq] at h
    obtain ⟨i, start, stop, step, -, -, -, -, rfl⟩ | ⟨e, he, rfl⟩ := ofLoop_ok h
    · have hrange := hst (.iterable target) _ rfl _ (Expr.mem_nodes_self _)
      simp [Expr.isText] at hrange
    · cases Expr.eq_raw_of_ordinary he (hst (.iterable target) e rfl)
      exact bare_loop hrest hparts (Expr.ofText_strict hs he).1
  · exact absurd (Heading.startsGuard_iff.2 ⟨guard, _, heq⟩) hguard
  · rw [heq] at h
    cases h
    rfl
  · rw [heq] at h
    obtain ⟨e, he, rfl | rfl | ⟨target, value, e', hsides, hvalue, rfl⟩⟩ := ofPlain_ok h
    · cases Expr.eq_raw_of_ordinary he (hst .whole e rfl)
      rfl
    · rfl
    · cases Expr.eq_raw_of_ordinary hvalue (hst (.assigned target) e' rfl)
      exact bare_assign (Expr.ofText_strict hs he).1 hsides

/-- A line without calls keeps every character but blanks outside brackets and strings. Only a guard
without a mark is written with one character more. -/
theorem ofCode_bare (hs : s.strictBrackets) (hcode : Text.trim code = code)
    (h : (ofCode s code).outcome = .ok st) (hst : st.IsOrdinary) :
    Text.bare st.python = Text.bare code ++
      if Text.startsGuard code ∧ code.getLast? ≠ some blockMark then [blockMark] else [] := by
  by_cases hguard : Text.startsGuard code
  · obtain ⟨guard, test, htest⟩ := Heading.startsGuard_iff.1 hguard
    obtain ⟨rest, hrest, rfl⟩ := Heading.rest_of_guarded htest
    rw [ofCode, htest] at h
    obtain ⟨e, he, rfl⟩ := Logged.outcome_map_eq_ok.1 h
    cases Expr.eq_raw_of_ordinary he (hst (.test guard) e rfl)
    rw [bare_guarded hcode hrest (Expr.ofText_strict hs he).1]
    simp [hguard]
  · rw [bare_of_not_guard hs hguard h hst]
    simp [hguard]

theorem ofCode_bare_guard :
    let code := "if   x ==  'a  b'  or f( 1,  2 )".toList
    ∃ st, (ofCode {} code).outcome = .ok st ∧ st.IsOrdinary ∧
      st.python = "if x ==  'a  b'  or f( 1,  2 ):".toList ∧
      Text.bare code = "ifx=='a  b'orf( 1,  2 )".toList ∧
      Text.bare st.python = Text.bare code ++
        if Text.startsGuard code ∧ code.getLast? ≠ some blockMark then [blockMark] else [] := by
  intro code
  have h : (ofCode {} code).outcome =
      .ok (.guarded .ifTest (.raw "x ==  'a  b'  or f( 1,  2 )".toList)) := by
    with_unfolding_all rfl
  have hst : (guarded .ifTest (.raw "x ==  'a  b'  or f( 1,  2 )".toList)).IsOrdinary := by
    intro slot e heq
    cases slot <;> cases heq
    simp [Expr.isText]
  exact ⟨_, h, hst, by decide +kernel, by decide +kernel,
    ofCode_bare rfl (by decide +kernel) h hst⟩

end Statement

end CallChain
