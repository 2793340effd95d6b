import CockroachChat.Sessions.Recast

/-! # The past of a node

What a node did, how many relays it fired and which random draws it used up have no influence on
what it does next: every run commutes with putting a past in front of the node's own. -/
namespace CockroachChat
set_option autoImplicit false

variable [P : Prims] {S : Type}

namespace MeshNode

/-- The node with an earlier past: its own draws come after those already spent. -/
def after (s : MeshNode S) (p : Past) : MeshNode S :=
  { s with
    trace := p.trace ++ s.trace
    relaysFired := p.fired + s.relaysFired
    entropy := fun n => (p.spent[n]?).getD (s.entropy (n - p.spent.length))
    drawn := p.spent.length + s.drawn }

/-- The node's past so far. -/
def past (s : MeshNode S) : Past where
  trace := s.trace
  fired := s.relaysFired
  spent := (List.range s.drawn).map s.entropy

/-- The node as if it had none. -/
def core (s : MeshNode S) : MeshNode S :=
  { s with trace := [], relaysFired := 0, entropy := fun n => s.entropy (s.drawn + n), drawn := 0 }

theorem core_past (s : MeshNode S) : s.core.after s.past = s := by
  have hentropy : (fun n => (s.past.spent[n]?).getD (s.core.entropy (n - s.past.spent.length))) = s.entropy := by
    funext n
    by_cases hn : n < s.drawn
    · simp [past, hn]
    · have hsplit : s.drawn + (n - s.drawn) = n := by omega
      simp [past, core, hn, hsplit]
  unfold after
  rw [hentropy]
  simp [past, core]

variable [Store S]

/-- No call looks at the past. -/
theorem run_past (s : MeshNode S) (p : Past) (calls : List Call) :
    Runs.run exec (s.after p) calls = (Runs.run exec s calls).after p :=
  run_recast (g := id) s p calls

end MeshNode
end CockroachChat
