import CallChain.Toml.Quoted

namespace CallChain.Toml

inductive Scalar
  | integer (n : Int)
  | string (t : Text)
  | boolean (b : Bool)
  deriving DecidableEq, Repr

/-- Digits of a base, with single underscores between them. -/
def digits? (base : Nat) (t : Text) : Option Nat :=
  let groups := Text.pieces '_' t
  let values := groups.flatten.mapM fun c ↦ (hexValue? c).filter (· < base)
  if groups.all (!·.isEmpty) then values.map (·.foldl (base * · + ·) 0) else none

/-- A decimal numeral other than zero starts with no zero. -/
def decimal? (t : Text) : Option Nat :=
  if t.head? = some '0' && t.length ≠ 1 then none else digits? 10 t

def integer? (t : Text) : Option Int :=
  let value := match t with
    | '0' :: 'x' :: t => (digits? 16 t).map Int.ofNat
    | '0' :: 'o' :: t => (digits? 8 t).map Int.ofNat
    | '0' :: 'b' :: t => (digits? 2 t).map Int.ofNat
    | '+' :: t => (decimal? t).map Int.ofNat
    | '-' :: t => (decimal? t).map fun n ↦ -Int.ofNat n
    | t => (decimal? t).map Int.ofNat
  value.filter fun n ↦ -0x8000000000000000 ≤ n && n < 0x8000000000000000

def isBare (c : Char) : Bool := c.isAlphanum || c = '_' || c = '-'

def bareScalar? (t : Text) : Option Scalar :=
  if t = "true".toList then some (.boolean true)
  else if t = "false".toList then some (.boolean false)
  else (integer? t).map .integer

def scalar (t : Text) : Option (Scalar × Text) :=
  match string t with
  | some k => some (.string k.before, k.after)
  | none =>
    let isPart c := isBare c || c = '+' || c = '.'
    (bareScalar? (t.takeWhile isPart)).map fun v ↦ (v, t.dropWhile isPart)

def key (t : Text) : Option Cut :=
  match quoted t with
  | some k => some k
  | none => (Text.nonempty? (t.takeWhile isBare)).map fun name ↦ ⟨name, t.dropWhile isBare⟩

def skipGap (t : Text) : Text := t.dropWhile isGap

/-- What follows the line, of which only a comment may be left. -/
def endLine (t : Text) : Option Text :=
  match skipGap t with
  | [] => some []
  | '\n' :: t => some t
  | '#' :: t =>
    match t.dropWhile isPlain with
    | [] => some []
    | '\n' :: t => some t
    | _ => none
  | _ => none

abbrev Entry := Text × Scalar

def entry (t : Text) : Option (Entry × Text) :=
  match key (skipGap t) with
  | none => none
  | some k =>
    match skipGap k.after with
    | '=' :: t =>
      match scalar (skipGap t) with
      | none => none
      | some (v, t) => (endLine t).map fun t ↦ ((k.before, v), t)
    | _ => none

theorem length_dropWhile_le (p : Char → Bool) (t : Text) : (t.dropWhile p).length ≤ t.length :=
  (List.dropWhile_suffix p).length_le

theorem length_scalar_le {t after : Text} {v : Scalar} (h : scalar t = some (v, after)) :
    after.length ≤ t.length := by
  rw [scalar] at h
  split at h
  · cases h
    exact length_string_le ‹_›
  · obtain ⟨v', -, h⟩ := Option.map_eq_some_iff.1 h
    cases h
    exact length_dropWhile_le _ t

theorem length_key_le {t : Text} {k : Cut} (h : key t = some k) : k.after.length ≤ t.length := by
  rw [key] at h
  split at h
  · cases h
    exact length_quoted_le ‹_›
  · obtain ⟨name, -, h⟩ := Option.map_eq_some_iff.1 h
    cases h
    exact length_dropWhile_le _ t

theorem length_endLine {t after : Text} (h : endLine t = some after) :
    after = [] ∨ after.length < t.length := by
  have hskip := length_dropWhile_le isGap t
  rw [endLine, skipGap] at h
  split at h
  · exact .inl (by simpa using h.symm)
  · rename_i ht
    cases h
    rw [ht, List.length_cons] at hskip
    exact .inr hskip
  · rename_i u ht
    have hplain := length_dropWhile_le isPlain u
    rw [ht, List.length_cons] at hskip
    split at h
    · exact .inl (by simpa using h.symm)
    · rename_i hu
      cases h
      rw [hu, List.length_cons] at hplain
      exact .inr (by omega)
    · simp at h
  · simp at h

theorem length_entry_lt {t after : Text} {e : Entry} (h : entry t = some (e, after)) :
    after.length < t.length := by
  have h₀ := length_dropWhile_le isGap t
  rw [entry] at h
  split at h
  · simp at h
  · rename_i k hk
    have h₁ := length_key_le hk
    have h₂ := length_dropWhile_le isGap k.after
    split at h
    · rename_i u hu
      have h₃ := length_dropWhile_le isGap u
      split at h
      · simp at h
      · rename_i v u' hv
        have h₄ := length_scalar_le hv
        obtain ⟨w, hw, h⟩ := Option.map_eq_some_iff.1 h
        cases h
        simp only [skipGap] at h₁ h₄ hu
        rw [hu, List.length_cons] at h₂
        rcases length_endLine hw with rfl | h₅
        · simp only [List.length_nil]
          omega
        · omega
    · simp at h

/-- The entries of a document, whose lines end with single newlines. -/
def entries (t : Text) : Option (List Entry) :=
  if t.isEmpty then some []
  else
    match _h : endLine t with
    | some after => entries after
    | none =>
      match _h : entry t with
      | some (e, after) => (entries after).map (e :: ·)
      | none => none
termination_by t.length
decreasing_by
  · rcases length_endLine ‹_› with rfl | h
    · exact List.length_pos_iff.2 (by simp_all)
    · exact h
  · exact length_entry_lt ‹_›

def unixLines : Text → Text
  | [] => []
  | '\r' :: '\n' :: t => '\n' :: unixLines t
  | c :: t => c :: unixLines t

def dropMark : Text → Text
  | '\uFEFF' :: t => t
  | t => t

/-- The entries of a document. A key stands in it once. -/
def document (t : Text) : Option (List Entry) :=
  (entries (unixLines (dropMark t))).filter fun es ↦ (es.map (·.1)).Nodup

end CallChain.Toml
