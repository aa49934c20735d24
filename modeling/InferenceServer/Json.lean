-- The values of `nlohmann::json`, as far as the HTTP server uses them: reading
-- a field with a default, and whether a value can be written as text.
import InferenceServer.Request
import Mathlib.Data.Rat.Floor

namespace inference_server

/-- The text is the UTF-8 encoding of some characters. -/
def IsUtf8 (s : Bytes) : Prop := s.toByteArray.IsValidUTF8

instance (s : Bytes) : Decidable (IsUtf8 s) :=
  inferInstanceAs (Decidable s.toByteArray.IsValidUTF8)

/-- A JSON value, with its numbers as the parser tells them apart. The fields
of an object have different keys. -/
inductive Json where
  | null
  | boolean (b : Bool)
  | integer (i : Int)
  | float (x : ℚ)
  | string (s : Bytes)
  | array (elements : List Json)
  | object (fields : List (Bytes × Json))

/-- What reading a field throws: a field of another type, or a value that is
no object. -/
inductive JsonError where
  | type_error_302
  | type_error_306
  deriving DecidableEq, Repr

namespace Json

/-- `get<std::string>()`. -/
def getString : Json → Except JsonError Bytes
  | .string s => .ok s
  | _ => .error .type_error_302

/-- `static_cast<int>` of a floating point number cuts off its fraction. The
language does not say what a number outside of 32 bits becomes. -/
def intOfFloat (x : ℚ) : Int32 := Int32.ofInt (if 0 ≤ x then ⌊x⌋ else ⌈x⌉)

/-- `get<int>()`: each number, cut to 32 bits, and a boolean as 0 or 1. -/
def getInt : Json → Except JsonError Int32
  | .integer i => .ok (Int32.ofInt i)
  | .float x => .ok (intOfFloat x)
  | .boolean b => .ok (if b then 1 else 0)
  | _ => .error .type_error_302

/-- `value(key, default)`, which reads a field if there is one. -/
def value {α : Type} (get : Json → Except JsonError α) (j : Json) (key : String) (default : α) :
    Except JsonError α :=
  match j with
  | .object fields =>
    match fields.lookup (bytes key) with
    | some field => get field
    | none => .ok default
  | _ => .error .type_error_306

/-- The field of an object, if there is one. -/
def field? : Json → String → Option Json
  | .object fields, key => fields.lookup (bytes key)
  | _, _ => none

/-- `contains(key)`. -/
def contains (j : Json) (key : String) : Bool := (j.field? key).isSome

mutual

/-- `dump()` writes the value. It throws on a string that is not UTF-8. -/
def dumps : Json → Bool
  | .string s => decide (IsUtf8 s)
  | .array elements => dumpsAll elements
  | .object fields => dumpsFields fields
  | _ => true

def dumpsAll : List Json → Bool
  | [] => true
  | j :: js => j.dumps && dumpsAll js

def dumpsFields : List (Bytes × Json) → Bool
  | [] => true
  | (key, j) :: fields => decide (IsUtf8 key) && j.dumps && dumpsFields fields

end

/-- The bytes that `dump()` writes for one byte of a string. -/
def sizeOfByte (c : UInt8) : Nat :=
  if [8, 9, 10, 12, 13, 34, 92].contains c then 2 else if c < 32 then 6 else 1

mutual

/-- How long the text of the value is. No response of the server has a
floating point number, and their texts are left out. -/
def size : Json → Nat
  | .null => 4
  | .boolean b => if b then 4 else 5
  | .integer i => (toString i).length
  | .float _ => 0
  | .string s => 2 + (s.map sizeOfByte).sum
  | .array elements => 2 + sizeAll elements + (elements.length - 1)
  | .object fields => 2 + sizeFields fields + (fields.length - 1)

def sizeAll : List Json → Nat
  | [] => 0
  | j :: js => j.size + sizeAll js

def sizeFields : List (Bytes × Json) → Nat
  | [] => 0
  | (key, j) :: fields => 3 + (key.map sizeOfByte).sum + j.size + sizeFields fields

end

end Json

/-! ## ASCII -/

/-- A text of ASCII bytes is UTF-8. -/
theorem isUtf8_of_ascii {s : Bytes} (h : ∀ b ∈ s, b < 128) : IsUtf8 s := by
  refine ⟨s.map (fun b => Char.ofNat b.toNat), ?_⟩
  unfold List.utf8Encode
  congr 1
  induction s with
  | nil => rfl
  | cons b s ih =>
    rw [List.map_cons, List.flatMap_cons, ← ih (fun b hb => h b (by simp [hb]))]
    have hb : b.toNat < 128 := h b (by simp)
    have hchar : (Char.ofNat b.toNat).val.toNat = b.toNat := by
      have hvalid : b.toNat.isValidChar := Or.inl (by omega)
      rw [Char.ofNat, dif_pos hvalid]
      rfl
    simp only [String.utf8EncodeChar, hchar]
    rw [if_pos (by omega)]
    simp

theorem isUtf8_bytes {s : String} (h : s.toList.all (fun c => c.toNat < 128) = true) :
    IsUtf8 (bytes s) := by
  apply isUtf8_of_ascii
  intro b hb
  obtain ⟨c, hc, rfl⟩ := List.mem_map.mp hb
  have hlt : c.toNat < 128 := by simpa using List.all_eq_true.mp h c hc
  have h128 : UInt8.toNat 128 = 128 := rfl
  rw [UInt8.lt_iff_toNat_lt]
  simp only [Nat.toUInt8_eq, UInt8.toNat_ofNat']
  omega

theorem isUtf8_repr (id : Nat) : IsUtf8 (bytes id.repr) := by
  apply isUtf8_bytes
  rw [List.all_eq_true]
  intro c hc
  have hdigit : c.isDigit = true := by
    rw [Nat.toList_repr] at hc
    exact Nat.isDigit_of_mem_toDigits (by decide) (by decide) hc
  simp only [Char.isDigit, Bool.and_eq_true, decide_eq_true_eq] at hdigit
  have hle : c.toNat ≤ 57 := hdigit.2
  simp only [decide_eq_true_eq]
  omega

theorem IsUtf8.append {a b : Bytes} (ha : IsUtf8 a) (hb : IsUtf8 b) : IsUtf8 (a ++ b) := by
  have h := ByteArray.IsValidUTF8.append ha hb
  unfold IsUtf8
  simpa using h

end inference_server
