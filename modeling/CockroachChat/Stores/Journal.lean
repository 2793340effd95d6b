import CockroachChat.Sessions.Recast
import CockroachChat.Stores.Interchange

/-! # A store that keeps its history

A `Journal` is a store of which only the operations so far are kept: what it holds is their result on
the store it started from, and what it answers that store's answer. A node over a journal runs like
the node over the store, and shows which operations it asked for. -/
namespace CockroachChat
set_option autoImplicit false

variable {S : Type} [Store S]

structure Journal (start : S) where
  log : List StoreOp

namespace Journal
variable {start : S}

def store (j : Journal start) : S := j.log.foldl StoreOp.apply start

def add (j : Journal start) (op : StoreOp) : Journal start := ⟨j.log ++ [op]⟩

@[simp] theorem add_store (j : Journal start) (op : StoreOp) : (j.add op).store = op.apply j.store := by
  rw [store, add, List.foldl_append]
  rfl

instance : Store (Journal start) where
  putChannelMessage j msg := j.add (.putChannelMessage msg)
  hasMessage j := Store.hasMessage j.store
  channelHistory j := Store.channelHistory j.store
  channelDigests j := Store.channelDigests j.store
  messageByDigest j := Store.messageByDigest j.store
  upsertPeer j peer := j.add (.upsertPeer peer)
  getPeer j := Store.getPeer j.store
  listPeers j := Store.listPeers j.store
  putDm j dm := j.add (.putDm dm)
  dmHistory j := Store.dmHistory j.store
  queueEnvelope j recipient packetBytes nowMs := j.add (.queueEnvelope recipient packetBytes nowMs)
  takeEnvelopes j recipient := (j.add (.takeEnvelopes recipient), (Store.takeEnvelopes j.store recipient).2)
  deletePeer j fp := j.add (.deletePeer fp)
  deleteDms j fp onlyControl := j.add (.deleteDms fp onlyControl)
  panicWipe j := j.add .panicWipe

instance : StoreHom (store : Journal start → S) where
  putChannelMessage j msg := (j.add_store (.putChannelMessage msg)).symm
  channelDigests _ _ := rfl
  messageByDigest _ _ := rfl
  upsertPeer j peer := (j.add_store (.upsertPeer peer)).symm
  getPeer _ _ := rfl
  putDm j dm := (j.add_store (.putDm dm)).symm
  queueEnvelope j fp b now := (j.add_store (.queueEnvelope fp b now)).symm
  takeEnvelopes j fp := Prod.ext (j.add_store (.takeEnvelopes fp)).symm rfl
  deletePeer j fp := (j.add_store (.deletePeer fp)).symm
  deleteDms j fp only := (j.add_store (.deleteDms fp only)).symm
  panicWipe j := (j.add_store .panicWipe).symm

end Journal

/-- The row of an operation that hands one over. -/
def StoreOp.row : StoreOp → Option StoredDm
  | putDm dm => some dm
  | _ => none

/-- The rows handed to `put_dm` so far. -/
def Journal.puts {start : S} (j : Journal start) : List StoredDm := j.log.filterMap StoreOp.row

namespace MeshNode
variable [P : Prims]

/-- The node with a journal, still empty, over its store. -/
def journaled (s : MeshNode S) : MeshNode (Journal s.store) := { s with store := ⟨[]⟩ }

/-- The node without the journal. -/
def replayed {start : S} (s : MeshNode (Journal start)) : MeshNode S := { s with store := s.store.store }

omit [Store S] in
theorem recast_nothing {T : Type} (s : MeshNode S) (g : S → T) :
    s.recast g { trace := [], fired := 0, spent := [] } = { s with store := g s.store } := by
  simp [recast]

/-- A run with the journal is the run without it. -/
theorem run_replayed {start : S} (s : MeshNode (Journal start)) (calls : List Call) :
    (Runs.run exec s calls).replayed = Runs.run exec s.replayed calls := by
  have hrun := run_recast (g := Journal.store) s { trace := [], fired := 0, spent := [] } calls
  rw [recast_nothing, recast_nothing] at hrun
  exact hrun.symm

/-- The rows that a run hands to `put_dm`. -/
def rowsPut (s : MeshNode S) (calls : List Call) : List StoredDm := (Runs.run exec s.journaled calls).store.puts

end MeshNode
end CockroachChat
