import CockroachChat.Privacy.Past
import CockroachChat.Node.ReferenceNodes

/-! # The panic wipe

`panicWipe` empties the store and the tables of the direct messages. What it leaves standing is what
two wiped nodes can still be told apart by. -/
namespace CockroachChat
set_option autoImplicit false

/-- What the outside sees of a node. -/
inductive Shown where
  | frame (link : LinkId) (bytes : Bytes)
  | closed (link : LinkId)
  | event (e : MeshEvent)
  deriving DecidableEq

def Obs.shown : Obs → Option Shown
  | .send link bytes => some (.frame link bytes)
  | .close link => some (.closed link)
  | .event e _ => some (.event e)
  | _ => none

variable [P : Prims] {S : Type}

/-- The state that a wipe does not touch and that traffic and commands wrote. -/
structure Leftovers where
  subscribed : Std.ExtTreeSet String
  seen : SeenCache
  rate : RateLimiter
  scheduler : RelayScheduler
  reassembler : Reassembler
  tags : Std.ExtTreeMap LinkId (Option EphId × Option Fingerprint)

namespace MeshNode

def leftovers (s : MeshNode S) : Leftovers where
  subscribed := s.subscribed
  seen := s.seen
  rate := s.rate
  scheduler := s.scheduler
  reassembler := s.reassembler
  tags := s.links.map fun _ l => (l.peerEph, l.peerFp)

variable [Store S]

/-- What a node shows from now on. -/
def shows (s : MeshNode S) (later : List Call) : List Shown :=
  ((Runs.run exec s later).trace.drop s.trace.length).filterMap Obs.shown

/-- Two nodes with one identity, nickname and configuration, the same live links and sizes, the same
clock and the same random draws to come. -/
structure SameSetting (s t : MeshNode S) : Prop where
  identity : s.identity = t.identity
  nickname : s.nickname = t.nickname
  cfg : s.cfg = t.cfg
  clock : s.clock = t.clock
  rng : s.rng = t.rng
  draws : ∀ n, s.entropy (s.drawn + n) = t.entropy (t.drawn + n)
  links : (s.links.map fun _ l => l.mtu) = t.links.map fun _ l => l.mtu
  /-- The stores have the same limits: wiped, they are alike. -/
  store : Store.panicWipe s.store = Store.panicWipe t.store

/-- What a node shows depends on its state without its past. -/
theorem shows_core (s : MeshNode S) (later : List Call) :
    s.shows later = (Runs.run exec s.core later).trace.filterMap Obs.shown := by
  have hrun : (Runs.run exec s later).trace = s.trace ++ (Runs.run exec s.core later).trace := by
    have h := congrArg MeshNode.trace (run_past s.core s.past later)
    rwa [core_past] at h
  rw [shows, hrun, List.drop_left]

omit [Store S] in
theorem links_eq {s t : MeshNode S} (mtus : (s.links.map fun _ l => l.mtu) = t.links.map fun _ l => l.mtu)
    (tags : (s.links.map fun _ l => (l.peerEph, l.peerFp)) = t.links.map fun _ l => (l.peerEph, l.peerFp)) :
    s.links = t.links := by
  apply Std.ExtTreeMap.ext_getElem?
  intro link
  have hmtu := congrArg (fun m => m[link]?) mtus
  have htag := congrArg (fun m => m[link]?) tags
  simp only [Std.ExtTreeMap.getElem?_map] at hmtu htag
  cases hs : s.links[link]? with
  | none =>
    rw [hs] at hmtu
    cases ht : t.links[link]? with
    | none => rfl
    | some l =>
      rw [ht] at hmtu
      cases hmtu
  | some l =>
    rw [hs] at hmtu htag
    cases ht : t.links[link]? with
    | none =>
      rw [ht] at hmtu
      cases hmtu
    | some l' =>
      rw [ht] at hmtu htag
      obtain ⟨mtu, eph, fp⟩ := l
      obtain ⟨mtu', eph', fp'⟩ := l'
      simp_all

end MeshNode
end CockroachChat

namespace CockroachChat.Reference

attribute [local instance] prims

/-- A node that knew a peer by name. -/
def acquainted : Node := run (node 1 {}) [⟨0, .setPetname (fpOf 2) "bob"⟩]

end CockroachChat.Reference
