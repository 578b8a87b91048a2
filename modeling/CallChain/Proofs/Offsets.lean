import Mathlib.Data.Nat.PSub
import CallChain.Layout
import CallChain.Proofs.ArgumentLists
import CallChain.Proofs.Cuts
import CallChain.Proofs.Literals

namespace CallChain.Text

variable {needle s t u : Text} {n : Nesting} {offset start stop width : Nat} {p : Char → Bool}
  {c : Char}

/-- The offset falls between two characters. -/
def IsBoundary (offset : Nat) (t : Text) : Prop :=
  ∃ before after, t = before ++ after ∧ bytes before = offset

theorem eq_nil_of_bytes (h : bytes t = 0) : t = [] := by
  by_contra hne
  have := bytes_pos hne
  omega

theorem slice?_isSome_iff :
    (slice? start stop t).isSome ↔
      start ≤ stop ∧ stop ≤ bytes t ∧ IsBoundary start t ∧ IsBoundary stop t := by
  rw [Option.isSome_iff_exists]
  constructor
  · rintro ⟨u, hu⟩
    obtain ⟨before, after, rfl, rfl, rfl⟩ := slice?_eq_some_iff.1 hu
    refine ⟨?_, ?_, ⟨before, u ++ after, rfl, rfl⟩, ⟨before ++ u, after, by simp, rfl⟩⟩
    · rw [bytes_append]
      omega
    · simp only [bytes_append]
      omega
  · rintro ⟨hle, -, ⟨before, rest, rfl, rfl⟩, ⟨before', after, htext, rfl⟩⟩
    obtain ⟨u, rfl, rfl⟩ | ⟨u, rfl, rfl⟩ := List.append_eq_append_iff.1 htext
    · exact ⟨u, slice?_append before u after⟩
    · have hu : u = [] := eq_nil_of_bytes (by rw [bytes_append] at hle; omega)
      refine ⟨[], slice?_eq_some_iff.2 ⟨before', rest, ?_, ?_, ?_⟩⟩ <;> simp [hu]

def sliceFrom? (start : Nat) (t : Text) : Option Text := slice? start (bytes t) t

def sliceTo? (stop : Nat) (t : Text) : Option Text := slice? 0 stop t

@[simp] theorem sliceFrom?_append (s t : Text) : sliceFrom? (bytes s) (s ++ t) = some t := by
  have h := slice?_append s t []
  rwa [List.append_nil] at h

theorem sliceFrom?_append_cons (hc : c.utf8Size = 1) :
    sliceFrom? (bytes s + 1) (s ++ c :: t) = some t := by
  have h := sliceFrom?_append (s ++ [c]) t
  rwa [bytes_append, bytes_cons, hc, bytes_nil, List.append_assoc] at h

@[simp] theorem sliceTo?_append (s t : Text) : sliceTo? (bytes s) (s ++ t) = some s :=
  slice?_append [] s t

/-- The characters of a text, each with its offset. -/
def indicesFrom (offset : Nat) : Text → List (Nat × Char)
  | [] => []
  | c :: t => (offset, c) :: indicesFrom (offset + c.utf8Size) t

def charIndices (t : Text) : List (Nat × Char) := indicesFrom 0 t

theorem bytes_concat (s : Text) (c : Char) : bytes (s ++ [c]) = bytes s + c.utf8Size := by
  rw [bytes_append]
  rfl

theorem indicesFrom_append (offset : Nat) (s t : Text) :
    indicesFrom offset (s ++ t) = indicesFrom offset s ++ indicesFrom (offset + bytes s) t := by
  induction s generalizing offset with
  | nil => rfl
  | cons c s ih =>
    rw [List.cons_append, indicesFrom, ih, indicesFrom, bytes_cons, Nat.add_assoc]
    rfl

theorem map_indicesFrom (offset : Nat) (t : Text) : (indicesFrom offset t).map (·.2) = t := by
  induction t generalizing offset with
  | nil => rfl
  | cons c t ih => rw [indicesFrom, List.map_cons, ih]

section Needles

/-- The offsets of a needle at top level, found in slices of the text. -/
def offsetsFrom? (needle t : Text) (n : Nesting) : List (Nat × Char) → Option (List Nat)
  | [] => some []
  | (i, c) :: cs => do
    let found ← if n.isTop then (sliceFrom? i t).map needle.isPrefixOf else some false
    let rest ← offsetsFrom? needle t (n.next c) cs
    return if found then i :: rest else rest

def offsets? (needle t : Text) : Option (List Nat) := offsetsFrom? needle t {} (charIndices t)

theorem offsetsFrom?_indicesFrom (needle before t : Text) (n : Nesting) :
    offsetsFrom? needle (before ++ t) n (indicesFrom (bytes before) t) =
      some (topOffsetsFrom needle n (bytes before) t) := by
  induction t generalizing before n with
  | nil => rfl
  | cons c t ih =>
    have hrest := ih (before ++ [c]) (n.next c)
    rw [List.append_assoc, bytes_concat] at hrest
    rw [indicesFrom, offsetsFrom?, topOffsetsFrom, sliceFrom?_append]
    simp only [List.singleton_append] at hrest
    rw [hrest]
    cases n.isTop <;> rfl

theorem offsets?_eq (needle t : Text) : offsets? needle t = some (topOffsets needle t) :=
  offsetsFrom?_indicesFrom needle [] t {}

theorem head?_topOffsetsFrom (needle : Text) (n : Nesting) (offset : Nat) (t : Text) :
    (topOffsetsFrom needle n offset t).head? =
      (cutFirstFrom needle n t).map fun k ↦ offset + bytes k.before := by
  induction t generalizing n offset with
  | nil => rfl
  | cons c t ih =>
    rw [topOffsetsFrom, cutFirstFrom]
    split
    · rfl
    · rw [ih, Option.map_map]
      congr 1
      funext k
      simp only [Function.comp_apply, Cut.cons, bytes_cons]
      omega

theorem head?_topOffsets (needle t : Text) :
    (topOffsets needle t).head? = (cutFirst needle t).map fun k ↦ bytes k.before := by
  rw [topOffsets, head?_topOffsetsFrom, cutFirst]
  simp only [Nat.zero_add]

theorem getLast?_topOffsetsFrom (needle : Text) (n : Nesting) (offset : Nat) (t : Text) :
    (topOffsetsFrom needle n offset t).getLast? =
      (cutLastFrom needle n t).map fun k ↦ offset + bytes k.before := by
  induction t generalizing n offset with
  | nil => rfl
  | cons c t ih =>
    have hrest := ih (n.next c) (offset + c.utf8Size)
    rw [topOffsetsFrom, cutLastFrom]
    cases hk : cutLastFrom needle (n.next c) t with
    | none =>
      rw [hk, Option.map_none, List.getLast?_eq_none_iff] at hrest
      dsimp only
      rw [hrest]
      split <;> rfl
    | some k =>
      rw [hk, Option.map_some] at hrest
      have hoffset : offset + bytes (k.cons c).before = offset + c.utf8Size + bytes k.before := by
        rw [Cut.cons, bytes_cons]
        omega
      dsimp only
      rw [Option.map_some, hoffset]
      split
      · rw [List.getLast?_cons, hrest]
        rfl
      · exact hrest

theorem getLast?_topOffsets (needle t : Text) :
    (topOffsets needle t).getLast? = (cutLast needle t).map fun k ↦ bytes k.before := by
  rw [topOffsets, getLast?_topOffsetsFrom, cutLast]
  simp only [Nat.zero_add]

/-- The two sides of a needle of a width at an offset. -/
def around? (width : Nat) (t : Text) (offset : Nat) : Option Cut := do
  return ⟨← sliceTo? offset t, ← sliceFrom? (offset + width) t⟩

theorem around?_append (s needle t : Text) :
    around? (bytes needle) (s ++ needle ++ t) (bytes s) = some ⟨s, t⟩ := by
  rw [around?, ← bytes_append, sliceFrom?_append, List.append_assoc, sliceTo?_append]
  rfl

def cutFirst? (needle : Text) (width : Nat) (t : Text) : Option (Option Cut) := do
  (← offsets? needle t).head?.mapM (around? width t)

def cutLast? (needle : Text) (width : Nat) (t : Text) : Option (Option Cut) := do
  (← offsets? needle t).getLast?.mapM (around? width t)

/-- Cuts at a needle are found again by the offsets that they are made at. -/
theorem mapM_around? {k? : Option Cut} (h : ∀ k ∈ k?, k.before ++ needle ++ k.after = t)
    (hwidth : bytes needle = width) :
    (k?.map fun k ↦ bytes k.before).mapM (around? width t) = some k? := by
  cases k? with
  | none => rfl
  | some k =>
    have hcut := around?_append k.before needle k.after
    rw [h k rfl, hwidth] at hcut
    rw [Option.map_some, Option.mapM_some, hcut]
    rfl

theorem cutFirst?_eq (h : bytes needle = width) (t : Text) :
    cutFirst? needle width t = some (cutFirst needle t) := by
  rw [cutFirst?, offsets?_eq, Option.bind_eq_bind, Option.bind_some, head?_topOffsets]
  exact mapM_around? (fun _ ↦ cutFirst_text) h

theorem cutLast?_eq (h : bytes needle = width) (t : Text) :
    cutLast? needle width t = some (cutLast needle t) := by
  rw [cutLast?, offsets?_eq, Option.bind_eq_bind, Option.bind_some, getLast?_topOffsets]
  exact mapM_around? (fun _ ↦ cutLastFrom_text) h

end Needles

def arguments? (t : Text) : Option (List Text) := do
  let pieces ← piecesAt? [','] t 0 (topOffsets [','] t)
  return (pieces.map trim).filter (!·.isEmpty)

theorem arguments?_eq (t : Text) : arguments? t = some (arguments t) := by
  have hcomma : Role.of ',' = .plain := rfl
  have hpieces := piecesAt?_topOffsetsFrom hcomma [] t
  rw [List.nil_append, bytes_nil] at hpieces
  rw [arguments?, topOffsets, hpieces]
  rfl

def cutCommentFrom? (t : Text) (n : Nesting) : List (Nat × Char) → Option (Text × Option Text)
  | [] => some (t, none)
  | (i, c) :: cs =>
    if c = '#' && !n.inString then do return (← sliceTo? i t, some (← sliceFrom? i t))
    else cutCommentFrom? t (n.next c) cs

theorem cutCommentFrom?_indicesFrom (before t : Text) (n : Nesting) :
    cutCommentFrom? (before ++ t) n (indicesFrom (bytes before) t) =
      some (before ++ (cutCommentFrom n t).1, (cutCommentFrom n t).2) := by
  induction t generalizing before n with
  | nil => rfl
  | cons c t ih =>
    rw [indicesFrom, cutCommentFrom?, cutCommentFrom]
    split
    · rw [sliceTo?_append, sliceFrom?_append, List.append_nil]
      rfl
    · have hrest := ih (before ++ [c]) (n.next c)
      rw [List.append_assoc, List.append_assoc, bytes_concat] at hrest
      exact hrest

def cutComment? (t : Text) : Option (Text × Option Text) := cutCommentFrom? t {} (charIndices t)

theorem cutComment?_eq (t : Text) : cutComment? t = some (cutComment t) :=
  cutCommentFrom?_indicesFrom [] t {}

section Characters

/-- The offset of the first character that satisfies `p`. -/
def offsetOf? (p : Char → Bool) (t : Text) : Option Nat :=
  ((charIndices t).find? fun q ↦ p q.2).map (·.1)

theorem find?_indicesFrom_append (hs : ∀ d ∈ s, ¬p d) (hc : p c) (offset : Nat) (t : Text) :
    (indicesFrom offset (s ++ c :: t)).find? (fun q ↦ p q.2) = some (offset + bytes s, c) := by
  induction s generalizing offset with
  | nil => exact List.find?_cons_of_pos hc
  | cons d s ih =>
    rw [List.forall_mem_cons] at hs
    rw [List.cons_append, indicesFrom, bytes_cons, ← Nat.add_assoc]
    rw [List.find?_cons_of_neg (by simpa using hs.1)]
    exact ih hs.2 _

theorem offsetOf?_append (hs : ∀ d ∈ s, ¬p d) (hc : p c) (t : Text) :
    offsetOf? p (s ++ c :: t) = some (bytes s) := by
  rw [offsetOf?, charIndices, find?_indicesFrom_append hs hc, Option.map_some, Nat.zero_add]

theorem offsetOf?_eq_none (h : ∀ c ∈ t, ¬p c) : offsetOf? p t = none := by
  rw [offsetOf?, Option.map_eq_none_iff, List.find?_eq_none]
  intro q hq
  have hmem : q.2 ∈ (charIndices t).map (·.2) := List.mem_map_of_mem hq
  rw [charIndices, map_indicesFrom] at hmem
  exact h _ hmem

theorem offsetOf?_char_append (h : c ∉ s) (t : Text) :
    offsetOf? (· = c) (s ++ c :: t) = some (bytes s) := by
  refine offsetOf?_append (fun d hd heq ↦ ?_) (decide_eq_true rfl) t
  exact h (of_decide_eq_true heq ▸ hd)

theorem offsetOf?_char_eq_none (h : c ∉ t) : offsetOf? (· = c) t = none := by
  refine offsetOf?_eq_none fun d hd heq ↦ ?_
  exact h (of_decide_eq_true heq ▸ hd)

theorem cutAt?_offsetOf? (p : Char → Bool) (t : Text) :
    cutAt? ((offsetOf? (!p ·) t).getD (bytes t)) t = some ⟨t.takeWhile p, t.dropWhile p⟩ := by
  have htaken : ∀ d ∈ t.takeWhile p, ¬(!p d) = true := by
    intro d hd
    simpa using List.mem_takeWhile_imp hd
  have htext : t.takeWhile p ++ t.dropWhile p = t := List.takeWhile_append_dropWhile
  cases hdrop : t.dropWhile p with
  | nil =>
    rw [hdrop, List.append_nil] at htext
    rw [htext] at htaken ⊢
    have hcut := cutAt?_append t []
    rw [List.append_nil] at hcut
    rw [offsetOf?_eq_none htaken, Option.getD_none, hcut]
  | cons c u =>
    have hc : !p c := by
      have hhead := List.head?_dropWhile_not p t
      rw [hdrop] at hhead
      simpa using hhead
    have hoffset := offsetOf?_append htaken hc u
    rw [hdrop] at htext
    have hcut := cutAt?_append (t.takeWhile p) (c :: u)
    rw [htext] at hoffset hcut
    rw [hoffset, Option.getD_some, hcut]

def lastWord? (t : Text) : Option Text :=
  sliceFrom? (((charIndices t).reverse.takeWhile fun q ↦ isIdentChar q.2).getLast?.elim 0 (·.1)) t

theorem map_takeWhile_indicesFrom (p : Char → Bool) (offset : Nat) (t : Text) :
    ((indicesFrom offset t).reverse.takeWhile fun q ↦ p q.2).map (·.2) = t.reverse.takeWhile p := by
  have h : List.takeWhile p ((indicesFrom offset t).reverse.map (·.2)) =
      ((indicesFrom offset t).reverse.takeWhile fun q ↦ p q.2).map (·.2) := List.takeWhile_map
  rw [← h, List.map_reverse, map_indicesFrom]

theorem lastWord?_eq (h : t.getLast?.any isIdentChar) : lastWord? t = some (lastWord t) := by
  obtain ⟨s, hs⟩ : ∃ s, t = s ++ lastWord t := by
    refine ⟨(t.reverse.dropWhile isIdentChar).reverse, ?_⟩
    rw [lastWord, ← List.reverse_append, List.takeWhile_append_dropWhile, List.reverse_reverse]
  obtain ⟨c, w, hw⟩ : ∃ c w, lastWord t = c :: w := by
    refine List.exists_cons_of_ne_nil fun hnil ↦ ?_
    rw [lastWord, List.reverse_eq_nil_iff] at hnil
    rw [← List.head?_reverse] at h
    cases hrev : t.reverse with
    | nil => simp [hrev] at h
    | cons c u =>
      rw [hrev] at h hnil
      simp [show isIdentChar c = true from h] at hnil
  have hindices : (charIndices t).reverse =
      (indicesFrom (bytes s) (lastWord t)).reverse ++ (charIndices s).reverse := by
    have hsplit := indicesFrom_append 0 s (lastWord t)
    rw [← hs, Nat.zero_add] at hsplit
    rw [charIndices, hsplit, List.reverse_append]
    rfl
  have hlength : ((charIndices t).reverse.takeWhile fun q ↦ isIdentChar q.2).length =
      (indicesFrom (bytes s) (lastWord t)).reverse.length := by
    have hmap := congrArg List.length (map_takeWhile_indicesFrom isIdentChar 0 t)
    have hword := congrArg List.length (map_indicesFrom (bytes s) (lastWord t))
    rw [List.length_map] at hmap hword
    rw [charIndices, hmap, List.length_reverse, hword, lastWord, List.length_reverse]
  have htaken : ((charIndices t).reverse.takeWhile fun q ↦ isIdentChar q.2) =
      (indicesFrom (bytes s) (lastWord t)).reverse := by
    rw [List.prefix_iff_eq_take.1 (List.takeWhile_prefix _), hlength, hindices, List.take_left]
  rw [lastWord?, htaken, List.getLast?_reverse, hw, indicesFrom]
  have hslice := sliceFrom?_append s (lastWord t)
  rwa [← hs, hw] at hslice

end Characters

/-- The quote that closes a literal is the last character if it stands at the last offset. -/
theorem literalEnd?_eq_some_iff (q : Quote) (t : Text) :
    literalEnd? q.mark (q.mark :: t) = some (bytes (q.mark :: t) - 1) ↔
      (cutLiteral q.mark (q.mark :: t)).any (·.after.isEmpty) := by
  have hmark : q.mark.utf8Size = 1 := by cases q <;> rfl
  rw [literalEnd?, cutLiteral, if_pos rfl]
  cases hk : closingQuoteFrom q.mark false t with
  | none => exact iff_of_false (fun h ↦ Option.some_ne_none _ h.symm) Bool.false_ne_true
  | some k =>
    have hbytes := congrArg bytes (closingQuoteFrom_spec hk).1
    rw [bytes_append, bytes_cons] at hbytes
    rw [Option.map_some, Option.some_inj, bytes_cons, hmark, Option.any_some, List.isEmpty_iff]
    constructor
    · intro hend
      exact eq_nil_of_bytes (by omega)
    · intro hnil
      rw [hnil, bytes_nil] at hbytes
      omega

end CallChain.Text

namespace CallChain.Literal

/-- A string literal, told by the offset of the quote that closes it. -/
def isString? (t : Text) : Option Bool := do
  let body := t.dropWhile (· ∈ ['f', 'F', 'r', 'R'])
  let letters ← Nat.psub (Text.bytes t) (Text.bytes body)
  if 2 < letters then return false
  match body.head? with
  | none => return false
  | some q =>
    if q = '"' || q = '\'' then
      let last ← Nat.psub (Text.bytes body) 1
      return Text.literalEnd? q body = some last
    else return false

theorem bytes_letters {t : Text} (h : ∀ c ∈ t, c ∈ ['f', 'F', 'r', 'R']) :
    Text.bytes t = t.length := by
  induction t with
  | nil => rfl
  | cons c t ih =>
    rw [List.forall_mem_cons] at h
    have hsize : c.utf8Size = 1 := by
      have hc := h.1
      simp only [List.mem_cons, List.not_mem_nil, or_false] at hc
      obtain rfl | rfl | rfl | rfl := hc <;> rfl
    rw [Text.bytes_cons, hsize, ih h.2, List.length_cons, Nat.add_comm]

theorem isString?_eq (t : Text) : isString? t = some (isString t) := by
  have hsplit := List.takeWhile_append_dropWhile (p := (· ∈ ['f', 'F', 'r', 'R'])) (l := t)
  have hletters := bytes_letters (t := t.takeWhile (· ∈ ['f', 'F', 'r', 'R'])) fun c hc ↦ by
    simpa using List.mem_takeWhile_imp hc
  have hbytes := congrArg Text.bytes hsplit
  have hlength := congrArg List.length hsplit
  rw [Text.bytes_append] at hbytes
  rw [List.length_append] at hlength
  rw [isString?, isString]
  generalize t.dropWhile (· ∈ ['f', 'F', 'r', 'R']) = body at *
  rw [Nat.psub_eq_sub (by omega), Option.bind_eq_bind, Option.bind_some]
  by_cases hshort : t.length - body.length ≤ 2
  · rw [if_neg (by omega), decide_eq_true hshort, Bool.true_and]
    cases body with
    | nil => rfl
    | cons c body =>
      dsimp only [List.head?_cons]
      by_cases hc : c = '"' || c = '\''
      · obtain ⟨q, rfl⟩ : ∃ q : Quote, c = q.mark := by
          rw [Bool.or_eq_true, decide_eq_true_eq, decide_eq_true_eq] at hc
          exact hc.elim (fun hc ↦ ⟨.double, hc⟩) fun hc ↦ ⟨.single, hc⟩
        have hpos := q.mark.utf8Size_pos
        rw [if_pos hc, hc, Bool.true_and, Nat.psub_eq_sub (by rw [Text.bytes_cons]; omega)]
        exact congrArg some
          (Bool.eq_iff_iff.2 (decide_eq_true_iff.trans (Text.literalEnd?_eq_some_iff q body)))
      · rw [if_neg hc, Bool.eq_false_iff.2 hc]
        rfl
  · rw [if_pos (by omega), decide_eq_false hshort, Bool.false_and]
    rfl

end CallChain.Literal
