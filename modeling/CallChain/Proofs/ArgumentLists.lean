import CallChain.Proofs.Cuts
import CallChain.Proofs.Slices
import CallChain.Proofs.Words

namespace CallChain

namespace Nesting

variable {n : Nesting} {c : Char} {t : Text}

theorem step_ne_mismatch (hc : Role.of c = .plain) : n.step c ≠ .mismatch := by
  rcases n with ⟨opened, _ | q | q⟩ <;> simp [step, hc]

theorem imbalance?_next (hc : Role.of c = .plain) : (n.next c).imbalance? = n.imbalance? := by
  rcases n with ⟨opened, _ | q | q⟩
  · rw [next_plain rfl hc]
  · have hq : c ≠ q.mark := by
      rintro rfl
      simp at hc
    by_cases hb : c = '\\' <;> simp [next, imbalance?, hb, hq]
  · simp [next, imbalance?]

theorem imbalance?_after (h : Text.Plain t) : (n.after t).imbalance? = n.imbalance? := by
  induction t generalizing n with
  | nil => rfl
  | cons c t ih =>
    rw [after_cons, ih fun d hd ↦ h d (by simp [hd]), imbalance?_next (h c (by simp))]

theorem after_plain (h : Text.Plain t) : ({} : Nesting).after t = {} := (h.reads rfl).after_eq

end Nesting

namespace Text

variable {separator : Char} {n : Nesting} {offset : Nat} {s s' t t' : Text} {ts : List Text}

/-- The closing brackets that match no open one, by a reading that goes on behind them. -/
def straysFrom (n : Nesting) : Text → List Char
  | [] => []
  | c :: t => (if n.step c = .mismatch then [c] else []) ++ straysFrom (n.next c) t

theorem straysFrom_append (n : Nesting) (s t : Text) :
    straysFrom n (s ++ t) = straysFrom n s ++ straysFrom (n.after s) t := by
  induction s generalizing n with
  | nil => rfl
  | cons c s ih =>
    rw [List.cons_append, straysFrom, straysFrom, ih, Nesting.after_cons, List.append_assoc]

theorem straysFrom_plain (h : Plain t) (n : Nesting) : straysFrom n t = [] := by
  induction t generalizing n with
  | nil => rfl
  | cons c t ih =>
    rw [straysFrom, if_neg (Nesting.step_ne_mismatch (h c (by simp))),
      ih fun d hd ↦ h d (by simp [hd])]
    rfl

/-- An argument list is told what is wrong by the first stray bracket, else by what is still open at
its end. -/
theorem argumentsMessage_imbalanceFrom (n : Nesting) (offset : Nat) (t : Text) :
    (imbalanceFrom n offset t).map Imbalance.argumentsMessage =
      ((straysFrom n t).head?.map fun c ↦ (Imbalance.stray c 0).argumentsMessage).or
        ((n.after t).imbalance?.map Imbalance.argumentsMessage) := by
  induction t generalizing n offset with
  | nil => rfl
  | cons c t ih =>
    rw [imbalanceFrom, straysFrom, Nesting.after_cons]
    by_cases hc : n.step c = .mismatch
    · rw [if_pos hc, if_pos hc]
      rfl
    · rw [if_neg hc, if_neg hc, List.nil_append]
      exact ih (n.next c) (offset + c.utf8Size)

/-- The two texts have the same stray brackets, and the same thing is open at their ends. -/
structure SameFaults (s t : Text) : Prop where
  strays : straysFrom {} s = straysFrom {} t
  ending : (({} : Nesting).after s).imbalance? = (({} : Nesting).after t).imbalance?

namespace SameFaults

theorem refl (t : Text) : SameFaults t t := ⟨rfl, rfl⟩

theorem symm (h : SameFaults s t) : SameFaults t s := ⟨h.strays.symm, h.ending.symm⟩

theorem trans (h : SameFaults s t) (h' : SameFaults t t') : SameFaults s t' :=
  ⟨h.strays.trans h'.strays, h.ending.trans h'.ending⟩

theorem after_eq (h : SameFaults s t) (ht : ({} : Nesting).after t = {}) :
    ({} : Nesting).after s = {} := by
  rw [← Nesting.imbalance?_eq_none_iff, h.ending, Nesting.imbalance?_eq_none_iff, ht]

theorem append (h : SameFaults s s') (hs' : ({} : Nesting).after s' = {}) (h' : SameFaults t t') :
    SameFaults (s ++ t) (s' ++ t') where
  strays := by
    rw [straysFrom_append, straysFrom_append, h.strays, h.after_eq hs', hs', h'.strays]
  ending := by
    rw [Nesting.after_append, Nesting.after_append, h.after_eq hs', hs', h'.ending]

theorem around {lead trail : Text} (hlead : Plain lead) (htrail : Plain trail) (t : Text) :
    SameFaults t (lead ++ (t ++ trail)) where
  strays := by
    rw [straysFrom_append, straysFrom_append, straysFrom_plain hlead, straysFrom_plain htrail,
      Nesting.after_plain hlead, List.nil_append, List.append_nil]
  ending := by
    rw [Nesting.after_append, Nesting.after_append, Nesting.after_plain hlead,
      Nesting.imbalance?_after htrail]

theorem trim (t : Text) : SameFaults (trim t) t := by
  obtain ⟨lead, trail, ht, hlead, htrail⟩ := exists_blanks t
  have h := around (plain_of_isBlank hlead) (plain_of_isBlank htrail) (Text.trim t)
  rwa [← ht] at h

theorem argumentsMessage (h : SameFaults s t) :
    (imbalance? s).map Imbalance.argumentsMessage =
      (imbalance? t).map Imbalance.argumentsMessage := by
  rw [imbalance?, imbalance?, argumentsMessage_imbalanceFrom, argumentsMessage_imbalanceFrom,
    h.strays, h.ending]

end SameFaults

theorem segmentsFrom_cases (hp : Role.of separator = .plain) (n : Nesting) (offset : Nat)
    (t : Text) :
    (segmentsFrom separator n t = [t] ∧ topOffsetsFrom [separator] n offset t = []) ∨
    ∃ s u, t = s ++ separator :: u ∧ segmentsFrom separator n s = [s] ∧ n.after s = {} ∧
      segmentsFrom separator n t = s :: segments separator u ∧
      topOffsetsFrom [separator] n offset t = (offset + bytes s) ::
        topOffsetsFrom [separator] {} (offset + bytes (s ++ [separator])) u := by
  induction t generalizing n offset with
  | nil => exact .inl ⟨rfl, rfl⟩
  | cons c t ih =>
    by_cases hc : n.isTop && c = separator
    · right
      have hoffsets : topOffsetsFrom [separator] n offset (c :: t) =
          offset :: topOffsetsFrom [separator] (n.next c) (offset + c.utf8Size) t := by
        rw [topOffsetsFrom, isPrefixOf_singleton, if_pos hc]
      have hsegments : segmentsFrom separator n (c :: t) =
          [] :: segmentsFrom separator (n.next c) t := by
        rw [segmentsFrom, if_pos hc]
      rw [Bool.and_eq_true, Nesting.isTop_iff, decide_eq_true_eq] at hc
      obtain ⟨rfl, rfl⟩ := hc
      rw [Nesting.next_plain rfl hp] at hoffsets hsegments
      exact ⟨[], t, rfl, rfl, rfl, hsegments, hoffsets⟩
    · have hoffsets : topOffsetsFrom [separator] n offset (c :: t) =
          topOffsetsFrom [separator] (n.next c) (offset + c.utf8Size) t := by
        rw [topOffsetsFrom, isPrefixOf_singleton, if_neg hc]
      obtain ⟨hone, hnone⟩ | ⟨s, u, rfl, hs, hafter, hsegments, hrest⟩ :=
        ih (n.next c) (offset + c.utf8Size)
      · left
        rw [segmentsFrom_cons hc, hone, hoffsets]
        exact ⟨rfl, hnone⟩
      · right
        refine ⟨c :: s, u, rfl, ?_, hafter, ?_, ?_⟩
        · rw [segmentsFrom_cons hc, hs]
          rfl
        · rw [segmentsFrom_cons hc, hsegments]
          rfl
        · rw [hoffsets, hrest, List.cons_append, bytes_cons, bytes_cons, Nat.add_assoc,
            Nat.add_assoc]

/-- Texts that a separator can stand between: each is one segment by itself, and all but the last
lead back to the top level. -/
inductive Joinable (separator : Char) : List Text → Prop
  | nil : Joinable separator []
  | last {t : Text} : segments separator t = [t] → Joinable separator [t]
  | cons {t : Text} {ts : List Text} : segments separator t = [t] → ({} : Nesting).after t = {} →
      Joinable separator ts → Joinable separator (t :: ts)

theorem joinable_segments (hp : Role.of separator = .plain) (t : Text) :
    Joinable separator (segments separator t) := by
  obtain ⟨hone, -⟩ | ⟨s, u, ht, hs, hafter, hsegments, -⟩ := segmentsFrom_cases hp {} 0 t
  · rw [segments, hone]
    exact .last hone
  · have : u.length < t.length := by
      rw [ht, List.length_append, List.length_cons]
      omega
    rw [segments, hsegments]
    exact .cons hs hafter (joinable_segments hp u)
termination_by t.length

theorem segmentsFrom_append_iff : segmentsFrom separator n (s ++ t) = [s ++ t] ↔
    segmentsFrom separator n s = [s] ∧ segmentsFrom separator (n.after s) t = [t] := by
  constructor
  · intro h
    induction s generalizing n with
    | nil => exact ⟨rfl, h⟩
    | cons c s ih =>
      by_cases hc : n.isTop && c = separator
      · simp [segmentsFrom, hc] at h
      · obtain ⟨u, us, hu⟩ := List.exists_cons_of_ne_nil
          (segmentsFrom_ne_nil separator (n.next c) (s ++ t))
        rw [List.cons_append, segmentsFrom_cons hc, hu, List.modifyHead_cons, List.cons.injEq,
          List.cons.injEq] at h
        obtain ⟨⟨-, rfl⟩, rfl⟩ := h
        obtain ⟨hs, ht⟩ := ih hu
        rw [segmentsFrom_cons hc, hs]
        exact ⟨rfl, ht⟩
  · rintro ⟨hs, ht⟩
    rw [segmentsFrom_append hs, ht]
    rfl

theorem segments_trim (h : segments separator t = [t]) :
    segments separator (trim t) = [trim t] := by
  obtain ⟨lead, trail, ht, hlead, -⟩ := exists_blanks t
  rw [segments, ht, segmentsFrom_append_iff, Nesting.after_plain (plain_of_isBlank hlead)] at h
  exact (segmentsFrom_append_iff.1 h.2).1

namespace Joinable

theorem whole (h : Joinable separator ts) : ∀ t ∈ ts, segments separator t = [t] := by
  induction h with
  | nil => simp
  | last ht => simpa using ht
  | cons ht _ _ ih => exact List.forall_mem_cons.2 ⟨ht, ih⟩

theorem map_trim (h : Joinable separator ts) : Joinable separator (ts.map trim) := by
  induction h with
  | nil => exact .nil
  | last ht => exact .last (segments_trim ht)
  | cons ht hafter _ ih => exact .cons (segments_trim ht) ((SameFaults.trim _).after_eq hafter) ih

theorem filter (h : Joinable separator ts) (p : Text → Bool) :
    Joinable separator (ts.filter p) := by
  induction h with
  | nil => exact .nil
  | @last t ht =>
    rw [List.filter_cons, List.filter_nil]
    cases p t with
    | false => exact .nil
    | true => exact .last ht
  | @cons t ts ht hafter _ ih =>
    rw [List.filter_cons]
    cases p t with
    | false => exact ih
    | true => exact .cons ht hafter ih

theorem segments_intercalate (h : Joinable separator ts) (hp : Role.of separator = .plain)
    (hne : ts ≠ []) : segments separator ([separator].intercalate ts) = ts := by
  induction h with
  | nil => exact absurd rfl hne
  | last ht => rwa [List.intercalate_singleton]
  | @cons t ts ht hafter _ ih =>
    cases ts with
    | nil => rwa [List.intercalate_singleton]
    | cons u us =>
      rw [List.intercalate_cons_cons, List.append_assoc, List.singleton_append,
        segments_append_of_after hafter ht hp, ih (List.cons_ne_nil u us)]

theorem sameFaults_intercalate (h : Joinable separator ts) (hp : Role.of separator = .plain) :
    SameFaults ([separator].intercalate ts) ts.flatten := by
  have hplain : Plain [separator] := by
    intro c hc
    rw [List.mem_singleton.1 hc, hp]
  induction h with
  | nil => exact .refl []
  | @last t ht =>
    rw [List.intercalate_singleton, List.flatten_singleton]
    exact .refl t
  | @cons t ts ht hafter _ ih =>
    rw [List.flatten_cons]
    cases ts with
    | nil =>
      rw [List.intercalate_singleton, List.flatten_nil, List.append_nil]
      exact .refl t
    | cons u us =>
      have hbehind : SameFaults t ([] ++ (t ++ [separator])) := .around (by simp [Plain]) hplain t
      rw [List.intercalate_cons_cons]
      exact hbehind.symm.append hafter ih

theorem sameFaults_trim (h : Joinable separator ts) :
    SameFaults (ts.map Text.trim).flatten ts.flatten := by
  induction h with
  | nil => exact .refl []
  | @last t ht =>
    rw [List.map_singleton, List.flatten_singleton, List.flatten_singleton]
    exact .trim t
  | @cons t ts ht hafter _ ih =>
    rw [List.map_cons, List.flatten_cons, List.flatten_cons]
    exact (SameFaults.trim t).append hafter ih

end Joinable

theorem joinable_arguments (t : Text) : Joinable ',' (arguments t) :=
  (joinable_segments (by decide) t).map_trim.filter _

/-- Joined by commas, the arguments of a text have the same thing wrong with them as the text. -/
theorem sameFaults_arguments (t : Text) : SameFaults ([','].intercalate (arguments t)) t := by
  have hsegments : Joinable ',' (segments ',' t) := joinable_segments (by decide) t
  have hflat : (arguments t).flatten = ((segments ',' t).map trim).flatten :=
    List.flatten_filter_not_isEmpty
  have htext := hsegments.sameFaults_intercalate (by decide)
  rw [segments, segmentsFrom_intercalate, ← segments] at htext
  have hjoined := (joinable_arguments t).sameFaults_intercalate (by decide)
  rw [hflat] at hjoined
  exact (hjoined.trans hsegments.sameFaults_trim).trans htext.symm

theorem trim_of_mem_arguments {a : Text} (h : a ∈ arguments t) : trim a = a ∧ a ≠ [] := by
  obtain ⟨hmem, hne⟩ := List.mem_filter.1 h
  obtain ⟨s, -, rfl⟩ := List.mem_map.1 hmem
  exact ⟨trim_trim s, by simpa using hne⟩

theorem arguments_of_segments (h : ∀ a ∈ ts, trim a = a ∧ a ≠ []) (ht : segments ',' t = ts) :
    arguments t = ts := by
  have hmap : ts.map trim = ts :=
    (List.map_congr_left fun a ha ↦ (h a ha).1).trans (List.map_id ts)
  rw [arguments, ht, hmap, List.filter_eq_self]
  intro a ha
  simpa using (h a ha).2

/-- The pieces of a text from an offset on, cut at the offsets of a needle and without it. -/
def piecesAt? (needle t : Text) : Nat → List Nat → Option (List Text)
  | start, [] => (slice? start (bytes t) t).map fun piece ↦ [piece]
  | start, offset :: offsets => do
    let piece ← slice? start offset t
    let rest ← piecesAt? needle t (offset + bytes needle) offsets
    return piece :: rest

theorem piecesAt?_topOffsetsFrom (hp : Role.of separator = .plain) (before t : Text) :
    piecesAt? [separator] (before ++ t) (bytes before)
      (topOffsetsFrom [separator] {} (bytes before) t) = some (segments separator t) := by
  obtain ⟨hone, hnone⟩ | ⟨s, u, rfl, -, -, hsegments, hoffsets⟩ :=
    segmentsFrom_cases hp {} (bytes before) t
  · have hslice := slice?_append before t []
    rw [List.append_nil] at hslice
    rw [hnone, piecesAt?, hslice, segments, hone]
    rfl
  · have : u.length < (s ++ separator :: u).length := by
      rw [List.length_append, List.length_cons]
      omega
    have hslice := slice?_append before s (separator :: u)
    have hrest := piecesAt?_topOffsetsFrom hp (before ++ (s ++ [separator])) u
    have htext : before ++ (s ++ [separator]) ++ u = before ++ (s ++ separator :: u) := by simp
    rw [htext, bytes_append] at hrest
    rw [bytes_append] at hslice
    have hwhole : segments separator (s ++ separator :: u) = s :: segments separator u := hsegments
    rw [hoffsets, piecesAt?, hslice, Nat.add_assoc, ← bytes_append, hrest, hwhole]
    rfl
termination_by t.length

end Text

/-- The arguments of a text, and what is said of its brackets and quotes if they are not
balanced. -/
structure ArgumentList where
  arguments : List Text
  problem : Option Text
  deriving DecidableEq, Repr

namespace ArgumentList

def ofText (t : Text) : ArgumentList :=
  ⟨Text.arguments t, (Text.imbalance? t).map Imbalance.argumentsMessage⟩

/-- The arguments of a text, joined by commas, have themselves for arguments, with the same problem.
They are what stands between the commas at top level, trimmed, without the empty ones, and each is
the only argument of itself. -/
theorem ofText_idempotent (t : Text) :
    ofText ([','].intercalate (ofText t).arguments) = ofText t ∧
    (Text.piecesAt? [','] t 0 (Text.topOffsets [','] t)).map
      (fun pieces ↦ (pieces.map Text.trim).filter (!·.isEmpty)) = some (ofText t).arguments ∧
    ∀ a ∈ (ofText t).arguments, (ofText a).arguments = [a] := by
  have hjoinable := Text.joinable_arguments t
  refine ⟨?_, ?_, fun a ha ↦ ?_⟩
  · have harguments : Text.arguments ([','].intercalate (Text.arguments t)) = Text.arguments t := by
      by_cases hne : Text.arguments t = []
      · rw [hne]
        rfl
      · exact Text.arguments_of_segments (fun a ↦ Text.trim_of_mem_arguments)
          (hjoinable.segments_intercalate (by decide) hne)
    rw [ofText, ofText, harguments, (Text.sameFaults_arguments t).argumentsMessage]
  · have hcomma : Role.of ',' = .plain := rfl
    have hpieces := Text.piecesAt?_topOffsetsFrom hcomma [] t
    rw [List.nil_append, Text.bytes_nil] at hpieces
    rw [Text.topOffsets, hpieces]
    rfl
  · refine Text.arguments_of_segments ?_ (hjoinable.whole a ha)
    intro b hb
    rw [List.mem_singleton.1 hb]
    exact Text.trim_of_mem_arguments ha

theorem ofText_idempotent_unterminated :
    let t := "é) , [1, 2],, 'x, \\ ".toList
    let last := "'x, \\".toList
    ofText t = ⟨["é)".toList, "[1, 2]".toList, last], some "unexpected `)` in arguments".toList⟩ ∧
    ofText ([','].intercalate (ofText t).arguments) = ofText t ∧ last ∈ (ofText t).arguments ∧
    (ofText last).arguments = [last] := by
  intro t last
  have hlast : last ∈ (ofText t).arguments := by decide
  exact ⟨by decide, (ofText_idempotent t).1, hlast, (ofText_idempotent t).2.2 last hlast⟩

end ArgumentList

end CallChain
