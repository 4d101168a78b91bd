/-!
# Code points and text

A `CodePoint` is a character or a surrogate.  `Text` is a sequence of code points, as the source of a
manifest is and any text decoded from it: both may hold lone surrogates, which are no characters, and
a high surrogate in front of a low one stays two code points.  Characters are code points by a
coercion, and a sequence of characters embeds by `Text.ofChars`.
-/

namespace ManifestTree

/-- A Unicode code point. -/
inductive CodePoint where
  | char (c : Char)
  /-- The surrogate so far above U+D800. -/
  | surrogate (n : Fin 0x800)
deriving DecidableEq, Repr

namespace CodePoint

instance : Coe Char CodePoint := ⟨char⟩

instance : Inhabited CodePoint := ⟨'a'⟩

/-- The number of a code point. -/
def val : CodePoint → Nat
  | .char c => c.toNat
  | .surrogate n => 0xD800 + n

@[simp] theorem val_char (c : Char) : (char c).val = c.toNat := rfl

@[simp] theorem val_surrogate (n : Fin 0x800) : (surrogate n).val = 0xD800 + n := rfl

/-- Code points are ordered by their numbers. -/
instance : LE CodePoint := ⟨fun a b => a.val ≤ b.val⟩

instance (a b : CodePoint) : Decidable (a ≤ b) := inferInstanceAs (Decidable (a.val ≤ b.val))

/-- No character has the number of a surrogate. -/
theorem toNat_valid (c : Char) : c.toNat < 0xD800 ∨ 0xE000 ≤ c.toNat ∧ c.toNat < 0x110000 := by
  have h := c.valid
  simp only [UInt32.isValidChar, Nat.isValidChar] at h
  simp only [Char.toNat]
  omega

theorem val_lt (c : CodePoint) : c.val < 0x110000 := by
  cases c with
  | char c =>
    have := toNat_valid c
    simp only [val_char]
    omega
  | surrogate n =>
    simp only [val_surrogate]
    omega

theorem ext_val {a b : CodePoint} (h : a.val = b.val) : a = b := by
  cases a with
  | char a =>
    cases b with
    | char b => exact congrArg char (Char.ext (UInt32.toNat_inj.mp h))
    | surrogate n =>
      have := toNat_valid a
      simp only [val_char, val_surrogate] at h
      omega
  | surrogate m =>
    cases b with
    | char b =>
      have := toNat_valid b
      simp only [val_char, val_surrogate] at h
      omega
    | surrogate n => exact congrArg surrogate (Fin.ext (Nat.add_left_cancel h))

/-- The code point of a number, if there is one. -/
def ofNat? (n : Nat) : Option CodePoint :=
  if h : n.isValidChar then some (char (Char.ofNatAux n h))
  else if h : n - 0xD800 < 0x800 then some (surrogate ⟨n - 0xD800, h⟩)
  else none

theorem ofNat?_val (c : CodePoint) : ofNat? c.val = some c := by
  cases c with
  | char c => exact dif_pos c.valid
  | surrogate n =>
    have hvalid : ¬ (0xD800 + n.val).isValidChar := by
      unfold Nat.isValidChar
      omega
    have hn : 0xD800 + n.val - 0xD800 < 0x800 := by omega
    show ofNat? (0xD800 + n.val) = _
    rw [ofNat?, dif_neg hvalid, dif_pos hn]
    simp

/-- The character that a code point is; a surrogate is none. -/
def toChar? : CodePoint → Option Char
  | .char c => some c
  | .surrogate _ => none

end CodePoint

/-- Text: code points in order. -/
abbrev Text := List CodePoint

namespace Text

/-- The text made of the given characters. -/
def ofChars (cs : List Char) : Text := cs.map .char

def ofString (s : String) : Text := ofChars s.toList

/-- The characters of a text, with U+FFFD in the place of each surrogate. -/
def toChars (t : Text) : List Char :=
  t.map fun c => c.toChar?.getD (Char.ofNat 0xFFFD)

/-- The text as a string, with U+FFFD in the place of each surrogate. -/
def asString (t : Text) : String := String.ofList t.toChars

@[simp] theorem ofChars_nil : ofChars [] = [] := rfl

@[simp] theorem ofChars_cons (c : Char) (cs : List Char) :
    ofChars (c :: cs) = .char c :: ofChars cs := rfl

@[simp] theorem ofChars_append (a b : List Char) : ofChars (a ++ b) = ofChars a ++ ofChars b :=
  List.map_append

@[simp] theorem length_ofChars (cs : List Char) : (ofChars cs).length = cs.length :=
  List.length_map _

@[simp] theorem length_ofString (s : String) : (ofString s).length = s.length := by
  rw [ofString, length_ofChars, String.length_toList]

theorem ofChars_injective {a b : List Char} (h : ofChars a = ofChars b) : a = b :=
  (List.map_inj_right fun _ _ => CodePoint.char.inj).mp h

end Text

end ManifestTree
