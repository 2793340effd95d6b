import CockroachChat.Core.Fingerprints
import CockroachChat.Stores.Threads

/-! # Commands that name a peer

The platform addresses a peer by the text of its fingerprint. Each such call reads the text first,
and is meant to do nothing on one that is malformed. -/
namespace CockroachChat
set_option autoImplicit false

variable [P : Prims] {S : Type} [Store S]

namespace FfiMeshNode

def withFingerprint {α : Type} (peerFingerprint : String) (f : Fingerprint → α) (otherwise : α) : Except Panic α := do
  match ← decodeHex32 peerFingerprint with
  | some fp => .ok (f fp)
  | none => .ok otherwise

def sendDm (node : MeshNode S) (peerFingerprint text : String) : Except Panic (MeshNode S) :=
  withFingerprint peerFingerprint (fun fp => node.sendDm fp text) node

def verifyPeer (node : MeshNode S) (peerFingerprint : String) : Except Panic (MeshNode S) :=
  withFingerprint peerFingerprint node.verifyPeer node

def unverifyPeer (node : MeshNode S) (peerFingerprint : String) : Except Panic (MeshNode S) :=
  withFingerprint peerFingerprint node.unverifyPeer node

def forgetPeer (node : MeshNode S) (peerFingerprint : String) : Except Panic (MeshNode S) :=
  withFingerprint peerFingerprint node.forgetPeer node

def startDmSession (node : MeshNode S) (peerFingerprint : String) : Except Panic (MeshNode S) :=
  withFingerprint peerFingerprint node.startDmSession node

def setPetname (node : MeshNode S) (peerFingerprint name : String) : Except Panic (MeshNode S) :=
  withFingerprint peerFingerprint (fun fp => node.setPetname fp name) node

def peerVerified (node : MeshNode S) (peerFingerprint : String) : Except Panic Bool :=
  withFingerprint peerFingerprint node.peerVerified false

def peerPetname (node : MeshNode S) (peerFingerprint : String) : Except Panic (Option String) :=
  withFingerprint peerFingerprint node.peerPetname none

def dmHistory (node : MeshNode S) (peerFingerprint : String) (limit : ℕ) : Except Panic (List FfiDmMessage) :=
  withFingerprint peerFingerprint (fun fp => node.ffiDmHistory fp limit) []

/-- Every call that takes a fingerprint leaves the node alone, and answers as for an unknown peer. -/
structure Ignored (node : MeshNode S) (peerFingerprint : String) : Prop where
  send_dm : ∀ text, sendDm node peerFingerprint text = .ok node
  verify_peer : verifyPeer node peerFingerprint = .ok node
  unverify_peer : unverifyPeer node peerFingerprint = .ok node
  forget_peer : forgetPeer node peerFingerprint = .ok node
  start_dm_session : startDmSession node peerFingerprint = .ok node
  set_petname : ∀ name, setPetname node peerFingerprint name = .ok node
  peer_verified : peerVerified node peerFingerprint = .ok false
  peer_petname : peerPetname node peerFingerprint = .ok none
  dm_history : ∀ limit, dmHistory node peerFingerprint limit = .ok []

omit P in
theorem withFingerprint_none {α : Type} {p : String} (h : decodeHex32 p = .ok none) (f : Fingerprint → α) (otherwise : α) :
    withFingerprint p f otherwise = .ok otherwise := by
  rw [withFingerprint, h]
  rfl

theorem ignored_of_none {p : String} (h : decodeHex32 p = .ok none) (node : MeshNode S) : Ignored node p where
  send_dm _ := withFingerprint_none h ..
  verify_peer := withFingerprint_none h ..
  unverify_peer := withFingerprint_none h ..
  forget_peer := withFingerprint_none h ..
  start_dm_session := withFingerprint_none h ..
  set_petname _ := withFingerprint_none h ..
  peer_verified := withFingerprint_none h ..
  peer_petname := withFingerprint_none h ..
  dm_history _ := withFingerprint_none h ..

/-- The text is read without a panic, as a fingerprint exactly if it is one, and as the one it writes. -/
structure Parses (p : String) : Prop where
  returns : ∃ r, decodeHex32 p = .ok r
  accepts : (∃ fp, decodeHex32 p = .ok (some fp)) ↔ IsFingerprint p
  digits : ∀ fp, decodeHex32 p = .ok (some fp) → hex fp.toList = p.toLower

omit P in
theorem decodeHex32_none {p : String} (h : Parses p) (hp : ¬ IsFingerprint p) : decodeHex32 p = .ok none := by
  obtain ⟨r, hr⟩ := h.returns
  cases r with
  | none => exact hr
  | some fp => exact absurd (h.accepts.mp ⟨fp, hr⟩) hp

omit P in
theorem parses_of_fingerprint {p : String} (h : IsFingerprint p) : Parses p := by
  obtain ⟨fp, hdec, hback⟩ := decodeHex32_fingerprint h
  refine ⟨⟨_, hdec⟩, iff_of_true ⟨fp, hdec⟩ h, ?_⟩
  intro fp' hfp'
  rw [hdec] at hfp'
  cases hfp'
  exact hback

omit P in
theorem parses_of_none {p : String} (h : decodeHex32 p = .ok none) : Parses p := by
  have hnot : ∀ fp, decodeHex32 p ≠ .ok (some fp) := by
    intro fp hfp
    rw [h] at hfp
    cases hfp
  refine ⟨⟨_, h⟩, ?_, fun fp hfp => absurd hfp (hnot fp)⟩
  constructor
  · rintro ⟨fp, hfp⟩
    exact absurd hfp (hnot fp)
  · intro hp
    obtain ⟨fp, hfp, -⟩ := decodeHex32_fingerprint hp
    exact absurd hfp (hnot fp)

/-- What is written reads back. What else is read as it should be, and ignored if malformed: a text
that is not 64 bytes long, one that is a fingerprint, and one whose first pair of bytes that is no
number ends with a character. -/
theorem fingerprint_commands (p : String) :
    (∀ fp : Fingerprint, decodeHex32 (hex fp.toList) = .ok (some fp)) ∧
      ((Parses p ∧ (¬ IsFingerprint p → ∀ node : MeshNode S, Ignored node p)) ↔
        (asBytes p).length ≠ 64 ∨ IsFingerprint p ∨ ∃ k < 32, RefusedAt (asBytes p) k) := by
  refine ⟨decodeHex32_hex, ?_⟩
  by_cases hp : IsFingerprint p
  · exact iff_of_true ⟨parses_of_fingerprint hp, fun h => absurd hp h⟩ (.inr (.inl hp))
  · rw [or_iff_right hp, ← decodeHex32_none_iff]
    constructor
    · rintro ⟨hparses, -⟩
      exact decodeHex32_none hparses hp
    · intro hnone
      exact ⟨parses_of_none hnone, fun _ node => ignored_of_none hnone node⟩

end FfiMeshNode

end CockroachChat

namespace CockroachChat.Reference
open FfiMeshNode
attribute [local instance] prims

/-- 32 times a plus sign and a digit is no fingerprint, and verifies a peer. A letter of three bytes
behind the first digit is a panic. -/
theorem plus_signs_read :
    let plus := String.ofList ((List.replicate 32 ['+', 'f']).flatten)
    let letter := String.ofList ('a' :: 'अ' :: List.replicate 60 '0')
    ¬ IsFingerprint plus ∧ decodeHex32 plus = .ok (some (Vector.replicate 32 15)) ∧ ¬ Parses plus ∧
      (∃ after, verifyPeer (node 1 {}) plus = .ok after ∧ after.peerVerified (Vector.replicate 32 15) = true) ∧
      decodeHex32 letter = .error .charBoundary ∧ ¬ Parses letter := by
  intro plus letter
  have hplus : decodeHex32 plus = .ok (some (Vector.replicate 32 15)) := by decide +kernel
  have hmalformed : ¬ IsFingerprint plus := by
    intro h
    have hsign : '+' ∈ plus.toList := by
      rw [String.toList_ofList]
      decide
    exact absurd (h.2 '+' hsign) (by decide)
  have hletter : decodeHex32 letter = .error .charBoundary := by decide +kernel
  refine ⟨hmalformed, hplus, fun h => hmalformed (h.accepts.mp ⟨_, hplus⟩), ?_, hletter, ?_⟩
  · refine ⟨(node 1 {}).verifyPeer (Vector.replicate 32 15), ?_, by decide +kernel⟩
    rw [verifyPeer, withFingerprint, hplus]
    rfl
  · intro h
    obtain ⟨r, hr⟩ := h.returns
    rw [hletter] at hr
    cases hr

end CockroachChat.Reference
