import Repack.Codec.Compact
import Repack.Proofs.Codec.Documented
import Repack.Proofs.Json.Reader

/-! The library of compact JSON does what is documented of a library. Its numbers are digits, its
texts and keys are quoted, and every tree that is put together from these is read from its text. -/
namespace Repack

namespace Json

theorem decoded?_encode (s : String) : decoded? (Quoted.encode s.toList) = some s := by
  rw [decoded?, Quoted.decode_encode, Option.map_some, String.ofList_toList]

theorem natBelow?_digits (n bound : Nat) :
    natBelow? bound (Decimal.digits n) = if n < bound then some n else none := by
  rw [natBelow?, Decimal.ofDigits?_digits, Option.filter_some]
  simp only [decide_eq_true_iff]

theorem sound_natural (n : Nat) : (natural n).Sound := by
  refine .number (List.all_eq_true.mpr ?_) (Json.ofWord?_digits n)
  intro c member
  have digit : Decimal.isDigit c = true := Decimal.isDigit_of_mem_digits member
  rw [Decimal.isDigit] at digit
  simp only [Token.isLetter, digit, Bool.true_or]

theorem sound_string (s : String) : (string s).Sound := .quoted (Quoted.whole_encode s.toList)

variable {fields : List (String × Json)}

theorem sound_record (sound : ∀ f ∈ fields, f.2.Sound) : (record fields).Sound := by
  refine .object ?_ ?_
  · intro f member
    obtain ⟨named, _, rfl⟩ := List.mem_map.mp member
    exact Quoted.whole_encode named.1.toList
  · intro f member
    obtain ⟨named, known, rfl⟩ := List.mem_map.mp member
    exact sound named known

theorem named?_record (fields : List (String × Json)) :
    named? (fields.map fun (name, j) => (Quoted.encode name.toList, j)) = some fields := by
  have read : named? (fields.map fun (name, j) => (Quoted.encode name.toList, j)) =
      some (fields.map id) := by
    apply Library.mapM_map_eq_some
    rintro ⟨name, j⟩ _
    dsimp only
    rw [decoded?_encode]
    rfl
  rwa [List.map_id] at read

/-- Digits are written as they are. -/
theorem encode_digits (n : Nat) : Quoted.encode (Decimal.digits n) = Decimal.digits n := by
  have plain : ∀ c ∈ Decimal.digits n, Quoted.escape c = [c] := by
    intro c member
    have digit := Decimal.isDigit_of_mem_digits member
    have printed : 48 ≤ c.toNat := by
      rw [Decimal.isDigit, Bool.and_eq_true, decide_eq_true_iff, Char.le_def] at digit
      exact UInt32.le_iff_toNat_le.mp digit.1
    apply Quoted.escape_eq_self
    · rintro rfl
      cases digit
    · rintro rfl
      cases digit
    · omega
  rw [Quoted.encode, List.flatMap_congr plain, List.flatMap_singleton']

theorem encode_toString (n : Nat) : Quoted.encode (toString n).toList = Decimal.digits n := by
  rw [Nat.toString_eq_repr, Nat.toList_repr]
  exact encode_digits n

end Json

namespace Library

theorem Plain.sound {d : Nat} {j : compact.Tree} (plain : compact.Plain d j) : Json.Sound j := by
  induction plain with
  | null => exact .null
  | number _ => exact Json.sound_natural _
  | text s => exact Json.sound_string s
  | array _ ih => exact .array ih
  | object _ _ ih => exact Json.sound_record ih

theorem compact_ofText?_toText {d : Nat} (j : Json) (plain : compact.Plain d j) :
    compact.ofText? (compact.toText j) = some j := by
  change Json.ofText? (String.ofList j.text).toList = some j
  rw [String.toList_ofList, plain.sound.ofText?_text]

theorem compact_read_number {α : Type} (bound : Nat) (value : α → Nat) (make : Nat → α) (n : Nat) :
    (Compact.number bound value make).read? (.natural n) =
      if n < bound then some (make n) else none := by
  change (Json.natBelow? bound (Decimal.digits n)).map make = _
  rw [Json.natBelow?_digits]
  split <;> rfl

theorem compact_read_some {α : Type} (f : Form Json α) {j : Json} (present : j ≠ .null) :
    (Compact.option f).read? j = (f.read? j).map some := by
  cases j with
  | null => exact absurd rfl present
  | bool => rfl
  | number => rfl
  | quoted => rfl
  | array => rfl
  | object => rfl

theorem compact_read_map {α : Type} (f : Form Json α) (pairs : List (UInt32 × Json)) :
    (Compact.map f).read? (.record (pairs.map fun (k, t) => (toString k.toNat, t))) =
      (pairs.mapM fun pair => (f.read? pair.2).map (pair.1, ·)).map fun l =>
        Std.ExtTreeMap.ofList l compare := by
  have field (pair : UInt32 × Json) : (do
      let k ← Json.natBelow? UInt32.size (Quoted.encode (toString pair.1.toNat).toList)
      let a ← f.read? pair.2
      pure (UInt32.ofNat k, a)) = (f.read? pair.2).map (pair.1, ·) := by
    rw [Json.encode_toString, Json.natBelow?_digits, if_pos pair.1.toNat_lt_size]
    cases f.read? pair.2 with
    | none => rfl
    | some a => exact congrArg (fun k => some (k, a)) UInt32.ofNat_toNat
  rw [Json.record, List.map_map, Compact.map]
  dsimp only
  rw [List.mapM_map]
  simp only [Function.comp_def, field]

theorem compact_read_record {α : Type} (fs : Fields Json α) (given : List (String × Json))
    (distinct : (given.map Prod.fst).Nodup) :
    (Compact.record fs).read? (.record given) = fs.read? given := by
  change (Json.named? (given.map fun (name, j) => (Quoted.encode name.toList, j))).bind _ = _
  rw [Json.named?_record, Option.bind_some, if_pos]
  rw [List.all_eq_true]
  intro name _
  rw [decide_eq_true_iff]
  have once := List.nodup_iff_count_le_one.mp distinct name
  rwa [List.count, List.countP_map] at once

theorem documented_compact : compact.Documented where
  ofText?_toText := compact_ofText?_toText
  null_ne_text := nofun
  write_uint16 := fun _ => rfl
  read_uint16 := compact_read_number UInt16.size UInt16.toNat UInt16.ofNat
  write_uint32 := fun _ => rfl
  read_uint32 := compact_read_number UInt32.size UInt32.toNat UInt32.ofNat
  write_string := fun _ => rfl
  read_string := Json.decoded?_encode
  write_none := fun _ => rfl
  read_null := fun _ => rfl
  write_some := fun _ _ => rfl
  read_some := compact_read_some
  write_list := fun _ _ => rfl
  read_list := fun _ _ => rfl
  write_set := fun _ _ => rfl
  read_set := fun _ _ => rfl
  write_map := fun _ _ => rfl
  read_map := compact_read_map
  write_record := fun _ _ => rfl
  read_record := fun fs given _ => compact_read_record fs given
  write_tagged := fun _ _ => rfl
  read_tagged := by
    intro α vs name j
    change (Json.decoded? (Quoted.encode name.toList)).bind _ = _
    rw [Json.decoded?_encode]
    rfl
  write_words := fun _ _ _ => rfl
  read_words := by
    intro α all name s
    change (Json.decoded? (Quoted.encode s.toList)).bind _ = _
    rw [Json.decoded?_encode]
    rfl

end Library

end Repack
