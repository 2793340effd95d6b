import CockroachChat.Node.Inbound
import CockroachChat.Foundations.Runs

/-! # Runs of one node

A call is an entry point of the node together with the clock reading it sees; a run is any list of
calls, with arbitrary readings and arbitrary frames. -/
namespace CockroachChat
set_option autoImplicit false

inductive Action where
  | transport (ev : MeshNode.TransportEvent)
  | tick
  | takeEvents
  | joinChannel (name : String)
  | sendChannelMessage (channel text : String)
  | announce
  | sendDm (fp : Fingerprint) (text : String)
  | startDmSession (fp : Fingerprint)
  | verifyPeer (fp : Fingerprint)
  | unverifyPeer (fp : Fingerprint)
  | forgetPeer (fp : Fingerprint)
  | setPetname (fp : Fingerprint) (name : String)
  | panicWipe

structure Call where
  now : Millis
  action : Action

namespace MeshNode
variable [P : Prims] {S : Type} [Store S]

def act (s : MeshNode S) : Action → MeshNode S
  | .transport ev => s.onTransportEvent ev
  | .tick => s.tick
  | .takeEvents => s.takeEvents.1
  | .joinChannel name => s.joinChannel name
  | .sendChannelMessage channel text => s.sendChannelMessage channel text
  | .announce => s.announce
  | .sendDm fp text => s.sendDm fp text
  | .startDmSession fp => s.startDmSession fp
  | .verifyPeer fp => s.verifyPeer fp
  | .unverifyPeer fp => s.unverifyPeer fp
  | .forgetPeer fp => s.forgetPeer fp
  | .setPetname fp name => s.setPetname fp name
  | .panicWipe => s.panicWipe

/-- `self.clock` now reads `now`. -/
def at_ (s : MeshNode S) (now : Millis) : MeshNode S := { s with clock := now }

def exec (s : MeshNode S) (c : Call) : MeshNode S := (s.at_ c.now).act c.action

/-- A node as its constructor returns it, over any store. -/
def Initial (s : MeshNode S) : Prop :=
  ∃ identity cfg clock store nickname rngSeed entropy,
    s = MeshNode.new identity cfg clock store nickname rngSeed entropy

/-- Reachable by some run from some initial node. -/
def Reachable (s : MeshNode S) : Prop :=
  ∃ s₀ : MeshNode S, s₀.Initial ∧ ∃ calls, s = Runs.run exec s₀ calls

theorem Initial.reachable {s : MeshNode S} (h : s.Initial) : s.Reachable := ⟨s, h, [], rfl⟩

theorem Reachable.run {s : MeshNode S} (h : s.Reachable) (calls : List Call) : (Runs.run exec s calls).Reachable := by
  obtain ⟨s₀, hinit, past, rfl⟩ := h
  exact ⟨s₀, hinit, past ++ calls, (Runs.run_append exec s₀ past calls).symm⟩

/-- The invariant rule for reachable nodes. -/
theorem Reachable.invariant (Inv : MeshNode S → Prop) (h₀ : ∀ s : MeshNode S, s.Initial → Inv s)
    (hstep : ∀ s c, Inv s → Inv (exec s c)) {s : MeshNode S} (hs : s.Reachable) : Inv s := by
  obtain ⟨s₀, hinit, calls, rfl⟩ := hs
  exact Runs.run_invariant exec Inv hstep s₀ (h₀ s₀ hinit) calls

end MeshNode
end CockroachChat
