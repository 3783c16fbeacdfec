import Repack.Settings.Setting
import Repack.Settings.Preference

/-!
The settings of a store.
-/
namespace Repack

structure Settings where
  /-- How to choose between entries that each prove an instance. -/
  preference : Setting Preference
  /-- The number of entries scanned between two reports of pruning. -/
  reportInterval : Setting Nat
  /-- The most entries given as seeds. -/
  seedLimit : Setting Nat
  deriving DecidableEq

namespace Settings

/-- The greatest count that a setting takes. -/
def maxCount : Nat := 18446744073709551615

/-- The smallest proof is preferred. -/
def standard : Settings where
  preference := ⟨"tie_break", .earliest, .smallest, .smallest⟩
  reportInterval := ⟨"prune_report_interval", 1, maxCount, 1000⟩
  seedLimit := ⟨"intersection_limit", 0, maxCount, 64⟩

inductive Change
  | preference (value : Preference)
  | reportInterval (value : Nat)
  | seedLimit (value : Nat)
  /-- Past the bounds of the setting. -/
  | forceReportInterval (value : Nat)
  | preferenceBounds (min max : Preference)
  | seedLimitBounds (min max : Nat)
  deriving DecidableEq, Repr

def change : Change → Action Settings Unit
  | .preference value =>
    .zoom Settings.preference (fun t s => { s with preference := t }) (Setting.assign value)
  | .reportInterval value =>
    .zoom Settings.reportInterval (fun t s => { s with reportInterval := t })
      (Setting.assign value)
  | .seedLimit value =>
    .zoom Settings.seedLimit (fun t s => { s with seedLimit := t }) (Setting.assign value)
  | .forceReportInterval value =>
    modify fun s => { s with reportInterval := { s.reportInterval with value } }
  | .preferenceBounds min max =>
    modify fun s => { s with preference := s.preference.rebound min max }
  | .seedLimitBounds min max => modify fun s => { s with seedLimit := s.seedLimit.rebound min max }

end Settings

end Repack
