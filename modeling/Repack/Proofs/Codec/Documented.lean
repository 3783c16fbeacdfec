import Repack.Codec.Entry
import Repack.Proofs.Entry

/-! What is known of a library: which tree it makes of a value, by the shape of its type, which
value it reads from such a tree, and that it reads the text of a tree. Nothing of this says that a
value is read from its own text; that follows, shape by shape. -/
namespace Repack

namespace Library

/-- Trees of numbers of 64 bits and texts, nested no deeper than so many levels, in which no object
has a key twice. -/
inductive Plain (lib : Library) : Nat → lib.Tree → Prop
  | null {d : Nat} : lib.Plain d lib.null
  | number {d n : Nat} (small : n < 2 ^ 64) : lib.Plain d (lib.number n)
  | text {d : Nat} (s : String) : lib.Plain d (lib.text s)
  | array {d : Nat} {items : List lib.Tree} (each : ∀ t ∈ items, lib.Plain d t) :
    lib.Plain (d + 1) (lib.array items)
  | object {d : Nat} {fields : List (String × lib.Tree)} (distinct : (fields.map Prod.fst).Nodup)
    (each : ∀ field ∈ fields, lib.Plain d field.2) : lib.Plain (d + 1) (lib.object fields)

/-- The documented behaviour of a library of JSON forms. -/
structure Documented (lib : Library) : Prop where
  /-- A text is read to a depth of 127 levels. -/
  ofText?_toText : ∀ t, lib.Plain 127 t → lib.ofText? (lib.toText t) = some t
  null_ne_text : ∀ s, lib.null ≠ lib.text s
  -- Numbers are numbers, read within their range, and strings are texts.
  write_uint16 : ∀ n, lib.uint16.write n = lib.number n.toNat
  read_uint16 : ∀ n, lib.uint16.read? (lib.number n) =
    if n < UInt16.size then some (.ofNat n) else none
  write_uint32 : ∀ n, lib.uint32.write n = lib.number n.toNat
  read_uint32 : ∀ n, lib.uint32.read? (lib.number n) =
    if n < UInt32.size then some (.ofNat n) else none
  write_string : ∀ s, lib.string.write s = lib.text s
  read_string : ∀ s, lib.string.read? (lib.text s) = some s
  -- An absent value is null, and a present one is written as it is.
  write_none : ∀ {α : Type} (f : Form lib.Tree α), (lib.option f).write none = lib.null
  read_null : ∀ {α : Type} (f : Form lib.Tree α), (lib.option f).read? lib.null = some none
  write_some : ∀ {α : Type} (f : Form lib.Tree α) (a : α),
    (lib.option f).write (some a) = f.write a
  read_some : ∀ {α : Type} (f : Form lib.Tree α) {t : lib.Tree}, t ≠ lib.null →
    (lib.option f).read? t = (f.read? t).map some
  -- Lists and sets are arrays, sets in ascending order, read in any.
  write_list : ∀ {α : Type} (f : Form lib.Tree α) (l : List α),
    (lib.list f).write l = lib.array (l.map f.write)
  read_list : ∀ {α : Type} (f : Form lib.Tree α) (items : List lib.Tree),
    (lib.list f).read? (lib.array items) = items.mapM f.read?
  write_set : ∀ {α : Type} [Ord α] [Std.TransOrd α] (f : Form lib.Tree α) (s : Std.ExtTreeSet α),
    (lib.set f).write s = lib.array (s.toList.map f.write)
  read_set : ∀ {α : Type} [Ord α] [Std.TransOrd α] (f : Form lib.Tree α) (items : List lib.Tree),
    (lib.set f).read? (lib.array items) =
      (items.mapM f.read?).map fun l => Std.ExtTreeSet.ofList l compare
  -- The keys of a map are written in decimal.
  write_map : ∀ {α : Type} (f : Form lib.Tree α) (m : Std.ExtTreeMap UInt32 α),
    (lib.map f).write m = lib.object (m.toList.map fun (k, a) => (toString k.toNat, f.write a))
  read_map : ∀ {α : Type} (f : Form lib.Tree α) (pairs : List (UInt32 × lib.Tree)),
    (lib.map f).read? (lib.object (pairs.map fun (k, t) => (toString k.toNat, t))) =
      (pairs.mapM fun pair : UInt32 × lib.Tree => (f.read? pair.2).map (pair.1, ·)).map fun l =>
        Std.ExtTreeMap.ofList l compare
  -- A record is an object by field name, and a value of a sum one with the name of its variant.
  write_record : ∀ {α : Type} (fs : Fields lib.Tree α) (a : α),
    (lib.record fs).write a = lib.object (fs.write a)
  read_record : ∀ {α : Type} (fs : Fields lib.Tree α) (given : List (String × lib.Tree)),
    fs.names.Nodup → (given.map Prod.fst).Nodup →
    (lib.record fs).read? (lib.object given) = fs.read? given
  write_tagged : ∀ {α : Type} (vs : Variants lib.Tree α) (a : α),
    (lib.tagged vs).write a = lib.object [vs.write a]
  read_tagged : ∀ {α : Type} (vs : Variants lib.Tree α) (name : String) (t : lib.Tree),
    (lib.tagged vs).read? (lib.object [(name, t)]) = vs.read? name t
  write_words : ∀ {α : Type} (all : List α) (name : α → String) (a : α),
    (lib.words all name).write a = lib.text (name a)
  read_words : ∀ {α : Type} (all : List α) (name : α → String) (s : String),
    (lib.words all name).read? (lib.text s) = all.find? (name · == s)

/-- A form whose trees are plain, and are read as what they were written for. -/
structure Faithful (lib : Library) (d : Nat) {α : Type} (f : Form lib.Tree α) : Prop where
  plain : ∀ a, lib.Plain d (f.write a)
  reads : ∀ a, f.read? (f.write a) = some a

variable {lib : Library} {α β : Type} {d e : Nat} {f : Form lib.Tree α}

theorem Plain.mono {t : lib.Tree} (plain : lib.Plain d t) (le : d ≤ e) : lib.Plain e t := by
  induction plain generalizing e with
  | null => exact .null
  | number small => exact .number small
  | text s => exact .text s
  | array _ ih =>
    cases e with
    | zero => omega
    | succ e => exact .array fun t member => ih t member (by omega)
  | object distinct _ ih =>
    cases e with
    | zero => omega
    | succ e => exact .object distinct fun field member => ih field member (by omega)

theorem Faithful.mono (h : lib.Faithful d f) (le : d ≤ e) : lib.Faithful e f :=
  ⟨fun a => (h.plain a).mono le, h.reads⟩

theorem Faithful.via (h : lib.Faithful d f) {make : α → β} {parts : β → α}
    (make_parts : ∀ b, make (parts b) = b) : lib.Faithful d (f.via make parts) where
  plain := fun b => h.plain (parts b)
  reads := by
    intro b
    change (f.read? (f.write (parts b))).map make = some b
    rw [h.reads, Option.map_some, make_parts]

/-- What was made of each member of a list is read back from each. -/
theorem mapM_map_eq_some {β γ δ : Type} {f : β → γ} {g : γ → Option δ} {h : β → δ} {l : List β}
    (each : ∀ b ∈ l, g (f b) = some (h b)) : (l.map f).mapM g = some (l.map h) := by
  induction l with
  | nil => rfl
  | cons b rest ih =>
    obtain ⟨first, others⟩ := List.forall_mem_cons.mp each
    rw [List.map_cons, List.mapM_cons, first, ih others]
    rfl

theorem Faithful.mapM_read (h : lib.Faithful d f) (l : List α) :
    (l.map f.write).mapM f.read? = some l := by
  rw [mapM_map_eq_some fun a _ => h.reads a, List.map_id']

theorem Faithful.plain_array (h : lib.Faithful d f) (l : List α) :
    lib.Plain (d + 1) (lib.array (l.map f.write)) := by
  refine .array ?_
  intro t member
  obtain ⟨a, _, rfl⟩ := List.mem_map.mp member
  exact h.plain a

theorem ofList_toList_set [Ord β] [Std.TransOrd β] [Std.LawfulEqOrd β] [DecidableEq β]
    (s : Std.ExtTreeSet β) : Std.ExtTreeSet.ofList s.toList compare = s := by
  apply Std.ExtTreeSet.ext_mem
  intro b
  rw [Std.ExtTreeSet.mem_ofList, List.contains_iff_mem, Std.ExtTreeSet.mem_toList]

theorem ofList_toList_map {γ : Type} [Ord β] [Std.TransOrd β] [Std.LawfulEqOrd β] [DecidableEq β]
    (m : Std.ExtTreeMap β γ) : Std.ExtTreeMap.ofList m.toList compare = m := by
  apply Std.ExtTreeMap.ext_getElem?
  intro b
  have read : ∀ pair ∈ m.toList, m[pair.1]? = some pair.2 :=
    fun _ member => Std.ExtTreeMap.mem_toList_iff_getElem?_eq_some.mp member
  rw [getElem?_ofList read, Std.ExtTreeMap.map_fst_toList_eq_keys]
  split
  · rfl
  · next missing => rw [Std.ExtTreeMap.getElem?_eq_none (mt Std.ExtTreeMap.mem_keys.mpr missing)]

/-- Numbers that differ have digits that differ. -/
theorem nodup_decimal {γ : Type} (m : Std.ExtTreeMap UInt32 γ) (g : γ → lib.Tree) :
    ((m.toList.map fun (k, a) => (toString k.toNat, g a)).map Prod.fst).Nodup := by
  have keys : (m.toList.map fun (k, a) => (toString k.toNat, g a)).map Prod.fst =
      m.keys.map fun k => toString k.toNat := by
    rw [← Std.ExtTreeMap.map_fst_toList_eq_keys, List.map_map, List.map_map]
    rfl
  rw [keys]
  refine Std.ExtTreeMap.nodup_keys.map ?_
  intro k k' same
  have digits : Nat.toDigits 10 k.toNat = Nat.toDigits 10 k'.toNat := by
    simpa only [Nat.toString_eq_repr, Nat.toList_repr] using congrArg String.toList same
  apply UInt32.toNat.inj
  rw [← Nat.ofDigitChars_ten_toDigits (n := k.toNat), digits, Nat.ofDigitChars_ten_toDigits]

/-- Whether all forms of a record are faithful. -/
def FaithfulFields (lib : Library) (d : Nat) {α : Type} : Fields lib.Tree α → Prop
  | .nil => True
  | .cons _ form rest => lib.Faithful d form ∧ FaithfulFields lib d rest

/-- Whether all forms of a sum are faithful. -/
def FaithfulVariants (lib : Library) (d : Nat) {α : Type} : Variants lib.Tree α → Prop
  | .last _ form => lib.Faithful d form
  | .or _ form rest => lib.Faithful d form ∧ FaithfulVariants lib d rest

theorem names_write {T : Type} (fs : Fields T α) (a : α) :
    (fs.write a).map Prod.fst = fs.names := by
  induction fs with
  | nil => rfl
  | cons name form rest ih => exact congrArg (name :: ·) (ih a.2)

theorem FaithfulFields.plain {fs : Fields lib.Tree α} (h : lib.FaithfulFields d fs) (a : α) :
    ∀ field ∈ fs.write a, lib.Plain d field.2 := by
  induction fs with
  | nil => exact nofun
  | cons name form rest ih => exact List.forall_mem_cons.mpr ⟨h.1.plain a.1, ih h.2 a.2⟩

/-- A record is read from any fields that give each of its own under its name. -/
theorem FaithfulFields.read_of_lookup {fs : Fields lib.Tree α} (h : lib.FaithfulFields d fs) (a : α)
    {given : List (String × lib.Tree)}
    (found : ∀ field ∈ fs.write a, given.lookup field.1 = some field.2) :
    fs.read? given = some a := by
  induction fs with
  | nil => rfl
  | cons name form rest ih =>
    obtain ⟨first, others⟩ := List.forall_mem_cons.mp found
    rw [Fields.read?, first, Option.elim_some, h.1.reads, ih h.2 a.2 others]
    rfl

theorem lookup_of_mem {T : Type} {given : List (String × T)} (distinct : (given.map Prod.fst).Nodup)
    {field : String × T} (member : field ∈ given) : given.lookup field.1 = some field.2 := by
  obtain ⟨before, after, rfl⟩ := List.append_of_mem member
  rw [List.lookup_eq_some_iff]
  refine ⟨before, after, rfl, ?_⟩
  intro other early
  rw [List.map_append, List.map_cons, List.nodup_append] at distinct
  have differs := distinct.2.2 other.1 (List.mem_map_of_mem early) field.1 List.mem_cons_self
  simpa using Ne.symm differs

theorem FaithfulFields.reads {fs : Fields lib.Tree α} (h : lib.FaithfulFields d fs)
    (distinct : fs.names.Nodup) (a : α) : fs.read? (fs.write a) = some a :=
  h.read_of_lookup a fun _ member => lookup_of_mem (names_write fs a ▸ distinct) member

theorem fst_write_mem_names {T : Type} (vs : Variants T α) (a : α) : (vs.write a).1 ∈ vs.names := by
  induction vs with
  | last name form => exact List.mem_cons_self
  | or name form rest ih =>
    cases a with
    | inl a => exact List.mem_cons_self
    | inr b => exact List.mem_cons_of_mem _ (ih b)

theorem FaithfulVariants.plain {vs : Variants lib.Tree α} (h : lib.FaithfulVariants d vs) (a : α) :
    lib.Plain d (vs.write a).2 := by
  induction vs with
  | last name form => exact Faithful.plain h a
  | or name form rest ih =>
    cases a with
    | inl a => exact h.1.plain a
    | inr b => exact ih h.2 b

theorem FaithfulVariants.reads {vs : Variants lib.Tree α} (h : lib.FaithfulVariants d vs)
    (distinct : vs.names.Nodup) (a : α) :
    vs.read? (vs.write a).1 (vs.write a).2 = some a := by
  induction vs with
  | last name form =>
    rw [Variants.write, Variants.read?, if_pos rfl]
    exact Faithful.reads h a
  | or name form rest ih =>
    obtain ⟨other, distinct⟩ := List.nodup_cons.mp distinct
    cases a with
    | inl a => rw [Variants.write, Variants.read?, if_pos rfl, h.1.reads, Option.map_some]
    | inr b =>
      have differs : (rest.write b).1 ≠ name :=
        fun same => other (same ▸ fst_write_mem_names rest b)
      rw [Variants.write, Variants.read?, if_neg differs, ih h.2 distinct, Option.map_some]

/-- Numbers that are read below a bound that they keep. -/
theorem faithful_number {value : α → Nat} {make : Nat → α} {bound : Nat} (small : bound ≤ 2 ^ 64)
    (write : ∀ a, f.write a = lib.number (value a))
    (read : ∀ n, f.read? (lib.number n) = if n < bound then some (make n) else none)
    (value_lt : ∀ a, value a < bound) (make_value : ∀ a, make (value a) = a) :
    lib.Faithful 0 f where
  plain := by
    intro a
    rw [write]
    exact .number ((value_lt a).trans_le small)
  reads := by
    intro a
    rw [write, read, if_pos (value_lt a), make_value]

namespace Documented

variable (documented : lib.Documented)
include documented

theorem faithful_uint16 : lib.Faithful 0 lib.uint16 :=
  faithful_number (by decide) documented.write_uint16 documented.read_uint16
    (fun n => n.toNat_lt_size) fun _ => UInt16.ofNat_toNat

theorem faithful_uint32 : lib.Faithful 0 lib.uint32 :=
  faithful_number (by decide) documented.write_uint32 documented.read_uint32
    (fun n => n.toNat_lt_size) fun _ => UInt32.ofNat_toNat

theorem faithful_string : lib.Faithful 0 lib.string where
  plain := by
    intro s
    rw [documented.write_string]
    exact .text s
  reads := by
    intro s
    rw [documented.write_string, documented.read_string]

/-- A form that never writes null leaves null for what is absent. -/
theorem faithful_option (h : lib.Faithful d f) (present : ∀ a, f.write a ≠ lib.null) :
    lib.Faithful d (lib.option f) where
  plain
    | none => by
      rw [documented.write_none]
      exact .null
    | some a => by
      rw [documented.write_some]
      exact h.plain a
  reads
    | none => by rw [documented.write_none, documented.read_null]
    | some a => by
      rw [documented.write_some, documented.read_some f (present a), h.reads]
      rfl

theorem faithful_list (h : lib.Faithful d f) : lib.Faithful (d + 1) (lib.list f) where
  plain := by
    intro l
    rw [documented.write_list]
    exact h.plain_array l
  reads := by
    intro l
    rw [documented.write_list, documented.read_list, h.mapM_read]

theorem faithful_set [Ord α] [Std.TransOrd α] [Std.LawfulEqOrd α] [DecidableEq α]
    (h : lib.Faithful d f) : lib.Faithful (d + 1) (lib.set f) where
  plain := by
    intro s
    rw [documented.write_set]
    exact h.plain_array s.toList
  reads := by
    intro s
    rw [documented.write_set, documented.read_set, h.mapM_read, Option.map_some,
      ofList_toList_set]

theorem faithful_map (h : lib.Faithful d f) : lib.Faithful (d + 1) (lib.map f) where
  plain := by
    intro m
    rw [documented.write_map]
    refine .object (nodup_decimal m f.write) ?_
    intro field member
    obtain ⟨pair, _, rfl⟩ := List.mem_map.mp member
    exact h.plain pair.2
  reads := by
    intro m
    have read : (m.toList.map fun pair => (pair.1, f.write pair.2)).mapM
        (fun pair => (f.read? pair.2).map (pair.1, ·)) = some (m.toList.map id) := by
      apply mapM_map_eq_some
      intro pair _
      rw [h.reads]
      rfl
    have written : m.toList.map (fun (k, a) => (toString k.toNat, f.write a)) =
        (m.toList.map fun pair => (pair.1, f.write pair.2)).map
          fun (k, t) => (toString k.toNat, t) := by
      rw [List.map_map]
      rfl
    rw [documented.write_map, written, documented.read_map, read, List.map_id, Option.map_some,
      ofList_toList_map]

theorem faithful_record {fs : Fields lib.Tree α} (h : lib.FaithfulFields d fs)
    (distinct : fs.names.Nodup) : lib.Faithful (d + 1) (lib.record fs) where
  plain := by
    intro a
    rw [documented.write_record]
    exact .object (names_write fs a ▸ distinct) (h.plain a)
  reads := by
    intro a
    rw [documented.write_record,
      documented.read_record fs _ distinct (names_write fs a ▸ distinct), h.reads distinct]

theorem faithful_tagged {vs : Variants lib.Tree α} (h : lib.FaithfulVariants d vs)
    (distinct : vs.names.Nodup) : lib.Faithful (d + 1) (lib.tagged vs) where
  plain := by
    intro a
    rw [documented.write_tagged]
    exact .object (List.nodup_singleton _) (by simpa using h.plain a)
  reads := by
    intro a
    rw [documented.write_tagged, ← Prod.mk.eta (p := vs.write a), documented.read_tagged,
      h.reads distinct]

theorem faithful_words {all : List α} {name : α → String}
    (found : ∀ a, all.find? (name · == name a) = some a) : lib.Faithful 0 (lib.words all name) where
  plain := by
    intro a
    rw [documented.write_words]
    exact .text _
  reads := by
    intro a
    rw [documented.write_words, documented.read_words, found]

end Documented

end Library

end Repack
