import Repack.Instance

/-!
Random sets, assignments and instances. Where the randomness comes from is left open.
-/
namespace Repack

/-- A source of random choices, with a state of its own. -/
structure Dice (σ : Type) where
  /-- Comes up with a probability. -/
  coin : Float → StateM σ Bool
  /-- A channel of a range, from the first to the last. -/
  channel : Channel → Channel → StateM σ Channel

namespace Dice

variable {σ : Type}

/-- Tosses a coin for each station of a universe. -/
def stations (dice : Dice σ) (members : List Station) (density : Float) :
    StateM σ (Std.ExtTreeSet Station) := do
  let drawn ← members.filterM fun _ => dice.coin density
  pure (.ofList drawn compare)

def stationSets (dice : Dice σ) (members : List Station) (count : Nat) (density : Float) :
    StateM σ (List (Std.ExtTreeSet Station)) :=
  (List.replicate count ()).mapM fun _ => dice.stations members density

/-- Draws a channel for each station, ascending. -/
def assignment (dice : Dice σ) (stations : Std.ExtTreeSet Station) (low high : Channel) :
    StateM σ Assignment := do
  let pairs ← stations.toList.mapM fun s => do
    let c ← dice.channel low high
    pure (s, c)
  pure (.ofList pairs compare)

def channelRange (low high : Channel) : List Channel :=
  (List.range' low.toNat (high.toNat + 1 - low.toNat)).map .ofNat

/-- Draws some stations, and for some of them a domain. -/
def sample (dice : Dice σ) (members : List Station) (density restriction : Float)
    (low high : Channel) : StateM σ Instance := do
  let drawn ← dice.stations members density
  drawn.toList.foldlM (fun i s => do
    if ← dice.coin restriction then
      let channels ← (channelRange low high).filterM fun _ => dice.coin 0.5
      pure (i.restrict s (.ofList channels compare))
    else pure (i.addStation s)) .empty

end Dice

end Repack
