import HaloVector.RankMap
import HaloVector.Topology.Membership
import HaloVector.Exchange.Counts

/-!
# Exchanging lists by rank

Ranks that do not know who has something for them exchange lists by rank. The lists
are given by their target and come back by their source: counts travel first, then
all elements at once. An empty list counts as none.
-/

namespace HaloVector

/-- Sends every list to its rank, and returns the lists that were sent here. -/
def exchangeByRank {α : Type} [Cell α] (c : Communicator) (lists : RankMap (List α))
    (tags : ExchangeTags) : Collective (RankMap (List α)) := do
  let topology := c.topology
  Collective.ofExcept (lists.keys.forM topology.checkRank)
  let outgoing := Layout.packed (lists.counts topology.size)
  let incoming := Layout.packed (← exchangeCounts c outgoing.counts tags.sizes)
  let sent := lists.concat topology.size
  let buffer ← exchange c sent outgoing incoming tags.data
  let targets := (outgoing.nonempty topology.ranks).length
  let sources := (incoming.nonempty topology.ranks).length
  Collective.log .debug <|
    s!"rank {topology.rank}: map all-to-all sent {sent.length} records " ++
    s!"to {targets} ranks, received {buffer.length} from {sources} ranks"
  pure (RankMap.ofParts incoming buffer topology.size)

end HaloVector
