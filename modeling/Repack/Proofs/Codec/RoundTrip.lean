import Repack.Codec.Entry
import Repack.Proofs.Codec.Compact

/-! What is saved is read back. Whatever library writes the text, if it does what is documented of
such libraries: instances, entries and reports come back from their text as they were, so values
that differ have texts that differ. -/
namespace Repack.Library

variable {lib : Library}

namespace Documented

variable (documented : lib.Documented)
include documented

/-- No string is written as null, so that a name can be told from no name. -/
theorem faithful_name : lib.Faithful 0 (form lib : Form lib.Tree (Option String)) := by
  refine documented.faithful_option documented.faithful_string ?_
  exact fun s null => documented.null_ne_text s (null.symm.trans (documented.write_string s))

theorem faithful_stations : lib.Faithful 1 (form lib : Form lib.Tree (Std.ExtTreeSet Station)) :=
  documented.faithful_set documented.faithful_uint32

theorem faithful_domains : lib.Faithful 2 (form lib : Form lib.Tree Domains) :=
  documented.faithful_map (documented.faithful_set documented.faithful_uint16)

theorem faithful_assignment : lib.Faithful 1 (form lib : Form lib.Tree Assignment) :=
  documented.faithful_map documented.faithful_uint16

theorem faithful_instance : lib.Faithful 3 (form lib : Form lib.Tree Instance) := by
  have fields : lib.FaithfulFields 2 (Instance.fields lib) :=
    ⟨documented.faithful_stations.mono (by decide), documented.faithful_domains,
      documented.faithful_name.mono (by decide), trivial⟩
  have distinct : ["stations", "domains", "name"].Nodup := by decide
  exact (documented.faithful_record fields distinct).via fun _ => rfl

theorem faithful_solution : lib.Faithful 2 (form lib : Form lib.Tree Solution) := by
  have string := documented.faithful_string.mono (Nat.zero_le 1)
  have fields : lib.FaithfulFields 1 (Solution.fields lib) :=
    ⟨documented.faithful_assignment, string, string, trivial⟩
  have distinct : ["assignment", "key", "solver"].Nodup := by decide
  exact (documented.faithful_record fields distinct).via fun _ => rfl

theorem faithful_refutation : lib.Faithful 3 (form lib : Form lib.Tree Refutation) := by
  have fields : lib.FaithfulFields 2 (Refutation.fields lib) :=
    ⟨documented.faithful_stations.mono (by decide), documented.faithful_domains,
      documented.faithful_string.mono (by decide), trivial⟩
  have distinct : ["stations", "domains", "key"].Nodup := by decide
  exact (documented.faithful_record fields distinct).via fun _ => rfl

theorem faithful_entry : lib.Faithful 4 (form lib : Form lib.Tree Entry) := by
  have variants : lib.FaithfulVariants 3 (Entry.variants lib) :=
    ⟨documented.faithful_solution.mono (by decide), documented.faithful_refutation⟩
  have distinct : ["Sat", "Unsat"].Nodup := by decide
  refine (documented.faithful_tagged variants distinct).via ?_
  rintro (a | a)
  · rfl
  · rfl

theorem faithful_report : lib.Faithful 0 (form lib : Form lib.Tree Report) :=
  documented.faithful_words Report.ofName?_name

end Documented

/-- Values that are read from the text written for them, and are told apart by it. -/
structure RoundTrips (lib : Library) (α : Type) [Serial α] : Prop where
  reads : ∀ a : α, lib.valueOf? (lib.textOf a) = some a
  distinct : ∀ a b : α, lib.textOf a = lib.textOf b → a = b

theorem Faithful.roundTrips {α : Type} [Serial α] {d : Nat}
    (h : lib.Faithful d (form lib : Form lib.Tree α)) (shallow : d ≤ 127)
    (documented : lib.Documented) : lib.RoundTrips α := by
  have reads (a : α) : lib.valueOf? (lib.textOf a) = some a := by
    rw [valueOf?, textOf, documented.ofText?_toText _ ((h.plain a).mono shallow), Option.bind_some,
      h.reads]
  refine ⟨reads, ?_⟩
  intro a b same
  rw [← Option.some.injEq, ← reads a, same, reads b]

/-- Entries of both kinds, instances, reports and lists of entries are read from the text that a
library writes for them, whatever texts and numbers they hold. -/
theorem text_roundTrips (lib : Library) (documented : lib.Documented) :
    lib.RoundTrips Solution ∧ lib.RoundTrips Refutation ∧ lib.RoundTrips Entry ∧
    lib.RoundTrips Instance ∧ lib.RoundTrips Report ∧ lib.RoundTrips (List Entry) := by
  have entries := documented.faithful_list documented.faithful_entry
  exact ⟨documented.faithful_solution.roundTrips (by decide) documented,
    documented.faithful_refutation.roundTrips (by decide) documented,
    documented.faithful_entry.roundTrips (by decide) documented,
    documented.faithful_instance.roundTrips (by decide) documented,
    documented.faithful_report.roundTrips (by decide) documented,
    entries.roundTrips (by decide) documented⟩

/-- An instance with an empty domain, and one for a station that is not part of it; and a solution
whose key is made of what has to be escaped. -/
theorem text_roundTrips_compact :
    let i : Instance := ⟨.ofList [4294967295, 7] compare,
      .ofList [(7, ∅), (9, .ofList [65535, 0] compare)] compare, none⟩
    let a : Solution := ⟨.ofList [(10, 14), (9, 0)] compare, "\"\\/\n\x07\x7fé😀", ""⟩
    compact.Documented ∧
    compact.textOf i =
      "\x7b\"stations\":[7,4294967295]," ++
        "\"domains\":\x7b\"7\":[],\"9\":[0,65535]\x7d,\"name\":null\x7d" ∧
    compact.valueOf? (compact.textOf i) = some i ∧
    compact.textOf [Entry.solution a] =
      "[\x7b\"Sat\":\x7b\"assignment\":\x7b\"9\":0,\"10\":14\x7d," ++
        "\"key\":\"\\\"\\\\/\\n\\u0007\x7fé😀\",\"solver\":\"\"\x7d\x7d]" ∧
    compact.valueOf? (compact.textOf [Entry.solution a]) = some [Entry.solution a] := by
  intro i a
  obtain ⟨_, _, _, instances, _, lists⟩ := text_roundTrips compact documented_compact
  refine ⟨documented_compact, ?_, instances.reads i, ?_, lists.reads [.solution a]⟩
  · decide +kernel
  · decide +kernel

end Repack.Library
