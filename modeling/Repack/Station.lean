import Std.Data.ExtTreeMap
import Std.Data.ExtTreeSet

/-!
Stations, channels and assignments, and assignments listed by channel.
-/
namespace Repack

abbrev Station := UInt32

abbrev Channel := UInt16

/-- The channels a station may be put on. -/
abbrev Domain := Std.ExtTreeSet Channel

abbrev Domains := Std.ExtTreeMap Station Domain

instance decidableEqDomains : DecidableEq Domains := inferInstance

abbrev Assignment := Std.ExtTreeMap Station Channel

/-- The stations on each channel. -/
abbrev Occupancy := Std.ExtTreeMap Channel (Std.ExtTreeSet Station)

def Occupancy.place (o : Occupancy) (s : Station) (c : Channel) : Occupancy :=
  o.insert c ((o[c]?.getD ∅).insert s)

/-- An assignment listed by channel; only channels in use are listed. -/
def Assignment.occupancy (a : Assignment) : Occupancy :=
  a.toList.foldl (fun o (s, c) => o.place s c) ∅

/-- The assignment that puts each station on the highest channel it is listed for. -/
def Occupancy.assignment (o : Occupancy) : Assignment :=
  .ofList (o.toList.flatMap fun (c, stations) => stations.toList.map fun s => (s, c)) compare

/-- The assignment restricted to some stations; stations without a channel are left out. -/
def Assignment.restrict (a : Assignment) (stations : List Station) : Assignment :=
  .ofList (stations.filterMap fun s => a[s]?.map fun c => (s, c)) compare

end Repack
