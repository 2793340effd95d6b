import CockroachChat.Foundations.SlidingWindow
import CockroachChat.Flood.Pacing

/-! # The countdown of a channel

The app refuses a message to a channel that has had its burst within the window, and shows how long
that lasts. What it shows and what it refuses come from the same send times, by a rule each. -/
namespace CockroachChat
set_option autoImplicit false

namespace BleController
variable [P : Prims]

/-- The gates of the app, with what it shows of them. -/
structure Screen where
  /-- Whether the node is up. -/
  node : Bool
  gates : Gates := {}
  channelCooldown : Std.ExtTreeMap String ℕ := ∅

namespace Screen

/-- The app once the node has come up. -/
def started : Screen where
  node := true

/-- `toInt()` of a `Long`. -/
def toInt (n : ℤ) : ℤ := n.bmod (2 ^ 32)

/-- The seconds until the first of the send times leaves the window, where there is a burst of them. -/
def remaining (t : Millis) (times : List Millis) : ℕ :=
  match times with
  | [] => 0
  | first :: _ =>
      if times.length ≥ channelBurst then (toInt ((first + channelWindowMs - (t : ℤ) + 999).tdiv 1000)).toNat else 0

def updateCooldown (s : Screen) (t : Millis) : Screen :=
  let gates := BleController.updateCooldown s.gates t
  { s with
    gates
    channelCooldown := gates.channelSendTimes.toList.foldl (fun shown e =>
      if shown[e.1]?.getD 0 ≠ remaining t e.2 then shown.insert e.1 (remaining t e.2) else shown) s.channelCooldown }

def sendChannel (s : Screen) (t : Millis) (rawName text : String) : Screen × Bool :=
  if !s.node then (s, false) else
  let (gates, sent) := BleController.sendChannel s.gates t rawName text
  ({ s with gates }, sent)

def channelCooldownFor (s : Screen) (rawName : String) : ℕ := s.channelCooldown[normalizeChannel rawName]?.getD 0

end Screen

inductive ScreenCall where
  | updateCooldown
  | sendChannel (rawName text : String)

namespace Screen

def call (s : Screen) (e : Millis × ScreenCall) : Screen × Bool :=
  match e.2 with
  | .updateCooldown => (s.updateCooldown e.1, false)
  | .sendChannel rawName text => s.sendChannel e.1 rawName text

def advance (s : Screen) (e : Millis × ScreenCall) : Screen := (call s e).1

/-- The time of a call that sends to the channel. -/
def sentNow (name : String) (s : Screen) (e : Millis × ScreenCall) : List Millis :=
  match e.2 with
  | .updateCooldown => []
  | .sendChannel rawName text => if normalizeChannel rawName = name ∧ (s.sendChannel e.1 rawName text).2 = true then [e.1] else []

/-- When messages were sent to a channel, under whichever of its names. -/
def sentOn (name : String) (schedule : List (Millis × ScreenCall)) : List Millis :=
  Runs.outputs advance (sentNow name) started schedule

/-- The send times that the app remembers of a channel. -/
def times (s : Screen) (name : String) : List Millis := s.gates.channelSendTimes[name]?.getD []

/-! ## What is shown -/

omit P in
/-- What is not in the list keeps what it shows. -/
theorem foldl_shown_of_not_mem (t : Millis) (name : String) (l : List (String × List Millis)) (shown : Std.ExtTreeMap String ℕ)
    (h : ∀ e ∈ l, e.1 ≠ name) :
    (l.foldl (fun shown e => if shown[e.1]?.getD 0 ≠ remaining t e.2 then shown.insert e.1 (remaining t e.2) else shown)
      shown)[name]?.getD 0 = shown[name]?.getD 0 := by
  induction l generalizing shown with
  | nil => rfl
  | cons e l ih =>
    have he : e.1 ≠ name := h e List.mem_cons_self
    rw [List.foldl_cons, ih _ fun e' he' => h e' (List.mem_cons_of_mem e he')]
    split_ifs
    · rw [Maps.getElem?_insert_ne _ _ he]
    · rfl

omit P in
theorem foldl_shown_of_mem (t : Millis) {name : String} {ts : List Millis} {l : List (String × List Millis)}
    (distinct : (l.map Prod.fst).Nodup) (h : (name, ts) ∈ l) (shown : Std.ExtTreeMap String ℕ) :
    (l.foldl (fun shown e => if shown[e.1]?.getD 0 ≠ remaining t e.2 then shown.insert e.1 (remaining t e.2) else shown)
      shown)[name]?.getD 0 = remaining t ts := by
  induction l generalizing shown with
  | nil => cases h
  | cons e l ih =>
    rw [List.map_cons, List.nodup_cons] at distinct
    rw [List.foldl_cons]
    rcases List.mem_cons.mp h with rfl | hrest
    · rw [foldl_shown_of_not_mem t name l]
      · split_ifs with hsame
        · simp
        · exact not_not.mp hsame
      · rintro e he rfl
        exact distinct.1 (List.mem_map.mpr ⟨e, he, rfl⟩)
    · exact ih distinct.2 hrest _

omit P in
theorem updateCooldown_sendTimes (g : Gates) (t : Millis) (name : String) :
    (BleController.updateCooldown g t).channelSendTimes[name]? = g.channelSendTimes[name]?.map (inWindow t) := by
  have hmap : (BleController.updateCooldown g t).channelSendTimes = g.channelSendTimes.map fun _ times => inWindow t times := by
    unfold BleController.updateCooldown
    split_ifs <;> rfl
  rw [hmap, Std.ExtTreeMap.getElem?_map]

omit P in
theorem updateCooldown_times (s : Screen) (t : Millis) (name : String) :
    (s.updateCooldown t).times name = inWindow t (s.times name) := by
  unfold times updateCooldown
  simp only [updateCooldown_sendTimes]
  cases s.gates.channelSendTimes[name]? <;> rfl

omit P in
/-- A channel that has been sent to shows how long it stays closed, any other what it showed. -/
theorem updateCooldown_shown (s : Screen) (t : Millis) (name : String) :
    (s.updateCooldown t).channelCooldown[name]?.getD 0 = match s.gates.channelSendTimes[name]? with
      | some ts => remaining t (inWindow t ts)
      | none => s.channelCooldown[name]?.getD 0 := by
  have hheld := updateCooldown_sendTimes s.gates t name
  cases hname : s.gates.channelSendTimes[name]? with
  | some ts =>
    rw [hname, Option.map_some] at hheld
    have hmem := Std.ExtTreeMap.mem_toList_iff_getElem?_eq_some.mpr hheld
    apply foldl_shown_of_mem t _ hmem
    rw [Std.ExtTreeMap.map_fst_toList_eq_keys]
    exact Std.ExtTreeMap.nodup_keys
  | none =>
    rw [hname, Option.map_none] at hheld
    apply foldl_shown_of_not_mem
    rintro ⟨name', ts⟩ he rfl
    rw [Std.ExtTreeMap.mem_toList_iff_getElem?_eq_some.mp he] at hheld
    cases hheld

omit P in
theorem seconds_pos {first t : ℕ} (inside : t - first < 10000) (past : first ≤ t) :
    (toInt (((first : ℤ) + 10000 - t + 999).tdiv 1000)).toNat ≠ 0 := by
  obtain ⟨d, rfl⟩ := Nat.exists_eq_add_of_le past
  have hleft : (first : ℤ) + 10000 - (first + d : ℕ) + 999 = ((10999 - d : ℕ) : ℤ) := by omega
  have hquot : ((10999 - d : ℕ) : ℤ).tdiv 1000 = ((10999 - d) / 1000 : ℕ) := by
    rw [Int.tdiv_eq_ediv_of_nonneg (Int.natCast_nonneg _)]
    rfl
  rw [hleft, hquot, toInt, Int.bmod_eq_of_le (by omega) (by omega)]
  omega

omit P in
/-- As long as the oldest of a burst is in the window, at least a second is shown. -/
theorem remaining_eq_zero_iff {t : Millis} {ts : List Millis} (inside : ∀ u ∈ ts.head?, t - u < channelWindowMs)
    (past : ∀ u ∈ ts, u ≤ t) : remaining t ts = 0 ↔ ts.length < channelBurst := by
  cases ts with
  | nil => exact iff_of_true rfl (by decide)
  | cons first ts =>
    have hinside : t - first < channelWindowMs := inside first rfl
    have hpast : first ≤ t := past first List.mem_cons_self
    rw [remaining]
    split_ifs with hfull
    · refine iff_of_false ?_ (Nat.not_lt.mpr hfull)
      exact seconds_pos hinside hpast
    · exact iff_of_true rfl (Nat.lt_of_not_le hfull)

/-! ## What is sent -/

omit P in
theorem inWindow_inWindow (t : Millis) (ts : List Millis) : inWindow t (inWindow t ts) = inWindow t ts := by
  unfold inWindow
  exact List.dropWhile_idempotent _ ts

omit P in
theorem inWindow_head (t : Millis) (ts : List Millis) : ∀ u ∈ (inWindow t ts).head?, t - u < channelWindowMs := by
  intro u hu
  have hhead := List.head?_dropWhile_not (fun first => decide (t - first ≥ channelWindowMs)) ts
  rw [show ts.dropWhile (fun first => decide (t - first ≥ channelWindowMs)) = inWindow t ts from rfl, Option.mem_def.mp hu] at hhead
  exact Nat.lt_of_not_le (of_decide_eq_false hhead)

omit P in
theorem insert_times (s : Screen) (channel : String) (ts : List Millis) (name : String) :
    ({ s with gates := { s.gates with channelSendTimes := s.gates.channelSendTimes.insert channel ts } } : Screen).times name =
      if channel = name then ts else s.times name := by
  unfold times
  simp only [Std.ExtTreeMap.getElem?_insert, Std.compare_eq_iff_eq]
  split_ifs <;> rfl

/-- What is done about a text, once the node is up. -/
theorem sendChannel_eq {s : Screen} (up : s.node = true) (t : Millis) (rawName : String) {text : String} (written : isBlank text = false) :
    let name := normalizeChannel rawName
    let held := inWindow t (s.times name)
    let kept := held ++ if held.length < channelBurst then [t] else []
    s.sendChannel t rawName text =
      ({ s with gates := { s.gates with channelSendTimes := s.gates.channelSendTimes.insert name kept } },
        decide (held.length < channelBurst)) := by
  intro name held kept
  have hgates : s.sendChannel t rawName text =
      ({ s with gates := (BleController.sendChannel s.gates t rawName text).1 }, (BleController.sendChannel s.gates t rawName text).2) := by
    unfold sendChannel
    rw [up]
    rfl
  have hsend : BleController.sendChannel s.gates t rawName text =
      if held.length ≥ channelBurst then ({ s.gates with channelSendTimes := s.gates.channelSendTimes.insert name held }, false)
      else ({ s.gates with channelSendTimes := s.gates.channelSendTimes.insert name (held ++ [t]) }, true) := by
    unfold BleController.sendChannel
    rw [written]
    rfl
  rw [hgates, hsend]
  unfold kept
  by_cases hfull : channelBurst ≤ held.length
  · rw [if_pos hfull, if_neg (Nat.not_lt.mpr hfull), List.append_nil, decide_eq_false (Nat.not_lt.mpr hfull)]
  · have hfew : held.length < channelBurst := Nat.lt_of_not_le hfull
    rw [if_neg hfull, if_pos hfew, decide_eq_true hfew]

theorem sendChannel_blank {s : Screen} (t : Millis) (rawName : String) {text : String} (h : s.node = false ∨ isBlank text = true) :
    s.sendChannel t rawName text = (s, false) := by
  unfold sendChannel BleController.sendChannel
  rcases h with h | h <;> simp [h]

/-- Where the app stands after the calls up to `now`. -/
structure Kept (now : Millis) (sent : String → List Millis) (s : Screen) : Prop where
  node : s.node = true
  bounded : ∀ name, SlidingWindow.Bounded channelWindowMs channelBurst (sent name)
  remembers : ∀ name, SlidingWindow.Remembers channelWindowMs now (sent name) (s.times name)
  past : ∀ name, ∀ u ∈ sent name, u ≤ now
  unused : ∀ name : String, s.gates.channelSendTimes[name]? = none → s.channelCooldown[name]?.getD 0 = 0

omit P in
theorem add_le_of_old {u t width : ℕ} (pos : 0 < width) (old : width ≤ t - u) : u + width ≤ t := by omega

omit P in
/-- What leaves the window is a window old. -/
theorem remembers_inWindow {t : Millis} {sent ts : List Millis} (h : SlidingWindow.Remembers channelWindowMs t sent ts) :
    SlidingWindow.Remembers channelWindowMs t sent (inWindow t ts) :=
  h.dropWhile fun _ hu => add_le_of_old (by decide) (of_decide_eq_true hu)

theorem sentNow_send (name : String) (s : Screen) (t : Millis) (rawName text : String) :
    sentNow name s (t, .sendChannel rawName text) =
      if normalizeChannel rawName = name ∧ (s.sendChannel t rawName text).2 = true then [t] else [] := rfl

namespace Kept
variable {now : Millis} {sent : String → List Millis} {s : Screen}

omit P in
theorem mono (h : Kept now sent s) {t : Millis} (le : now ≤ t) : Kept t sent s :=
  ⟨h.node, h.bounded, fun name => (h.remembers name).mono le, fun name u hu => (h.past name u hu).trans le, h.unused⟩

omit P in
theorem times_past (h : Kept now sent s) (name : String) : ∀ u ∈ s.times name, u ≤ now := by
  intro u hu
  obtain ⟨old, hsent, -⟩ := h.remembers name
  apply h.past name
  rw [hsent]
  exact List.mem_append_right old hu

omit P in
theorem updateCooldown (h : Kept now sent s) : Kept now sent (s.updateCooldown now) := by
  refine ⟨h.node, h.bounded, fun name => ?_, h.past, fun name hname => ?_⟩
  · rw [updateCooldown_times]
    exact remembers_inWindow (h.remembers name)
  · have hbefore : s.gates.channelSendTimes[name]? = none := by
      rw [← Option.map_eq_none_iff, ← updateCooldown_sendTimes]
      exact hname
    rw [updateCooldown_shown, hbefore]
    exact h.unused name hbefore

theorem sendChannel (h : Kept now sent s) (rawName text : String) :
    Kept now (fun name => sent name ++ sentNow name s (now, .sendChannel rawName text)) (s.sendChannel now rawName text).1 := by
  by_cases hblank : isBlank text = true
  · have hnothing : ∀ name, sentNow name s (now, .sendChannel rawName text) = [] := by
      intro name
      rw [sentNow_send, sendChannel_blank now rawName (.inr hblank)]
      simp
    rw [sendChannel_blank now rawName (.inr hblank)]
    simp only [hnothing, List.append_nil]
    exact h
  · have hwritten : isBlank text = false := Bool.eq_false_iff.mpr hblank
    have hsend := sendChannel_eq h.node now rawName hwritten
    simp only at hsend
    refine ⟨?_, fun name => ?_, fun name => ?_, fun name u hu => ?_, fun name hname => ?_⟩
    · rw [hsend]
      exact h.node
    · rw [sentNow_send, hsend]
      simp only [decide_eq_true_eq]
      split_ifs with hsent
      · obtain ⟨rfl, hfew⟩ := hsent
        exact (h.bounded _).snoc (remembers_inWindow (h.remembers _)) hfew
      · rw [List.append_nil]
        exact h.bounded name
    · rw [sentNow_send, hsend, insert_times]
      simp only [decide_eq_true_eq]
      by_cases hname : normalizeChannel rawName = name
      · subst hname
        have hheld := remembers_inWindow (h.remembers (normalizeChannel rawName))
        by_cases hfew : (inWindow now (s.times (normalizeChannel rawName))).length < channelBurst
        · simp only [hfew, and_self, if_true]
          exact hheld.snoc now
        · simp only [hfew, and_false, if_false, if_true, List.append_nil]
          exact hheld
      · simp only [hname, false_and, if_false, List.append_nil]
        exact h.remembers name
    · rcases List.mem_append.mp hu with hu | hu
      · exact h.past name u hu
      · rw [sentNow_send] at hu
        split_ifs at hu
        · rw [List.mem_singleton.mp hu]
        · cases hu
    · rw [hsend] at hname ⊢
      simp only [Std.ExtTreeMap.getElem?_insert] at hname
      split_ifs at hname
      exact h.unused name hname

end Kept

omit P in
theorem kept_started : Kept 0 (fun _ => []) started where
  node := rfl
  bounded _ := SlidingWindow.bounded_nil _ _
  remembers _ := SlidingWindow.remembers_nil _ _
  past _ u hu := nomatch hu
  unused name _ := by simp [started]

/-- After the calls of a schedule, and up to any time that is not before them. -/
theorem run_kept (schedule : List (Millis × ScreenCall)) (sorted : (schedule.map (·.1)).Pairwise (· ≤ ·)) (now : Millis)
    (past : ∀ e ∈ schedule, e.1 ≤ now) : Kept now (fun name => sentOn name schedule) (Runs.run advance started schedule) := by
  induction schedule using List.reverseRecOn generalizing now with
  | nil => exact kept_started.mono (Nat.zero_le now)
  | append_singleton schedule e ih =>
    rw [List.map_append, List.pairwise_append] at sorted
    obtain ⟨hsorted, -, hlast⟩ := sorted
    have hbefore : ∀ e' ∈ schedule, e'.1 ≤ e.1 := fun e' he' => hlast _ (List.mem_map_of_mem he') e.1 (by simp)
    have hkept := ih hsorted e.1 hbefore
    have hstep : Kept e.1 (fun name => sentOn name (schedule ++ [e])) (Runs.run advance started (schedule ++ [e])) := by
      rw [Runs.run_snoc]
      simp only [sentOn, Runs.outputs_append, Runs.outputs, List.append_nil]
      obtain ⟨t, c⟩ := e
      cases c with
      | updateCooldown =>
        simp only [sentNow, List.append_nil]
        exact hkept.updateCooldown
      | sendChannel rawName text => exact hkept.sendChannel rawName text
    exact hstep.mono (past e (by simp))

/-- At most a burst of messages is sent to a channel within any window, and after an update the channel
shows zero exactly when a message to it would be sent. -/
theorem send_window (schedule : List (Millis × ScreenCall)) (sorted : (schedule.map (·.1)).Pairwise (· ≤ ·)) :
    (∀ (name : String) (a : Millis),
      ((sentOn name schedule).filter fun u => a ≤ u ∧ u < a + channelWindowMs).length ≤ channelBurst) ∧
    ∀ t, (∀ e ∈ schedule, e.1 ≤ t) → ∀ rawName text, isBlank text = false →
      let s := (Runs.run advance started schedule).updateCooldown t
      s.channelCooldownFor rawName = 0 ↔ (s.sendChannel t rawName text).2 = true := by
  constructor
  · have hpast : ∀ e ∈ schedule, e.1 ≤ (schedule.map (·.1)).sum := fun e he => List.le_sum_of_mem (List.mem_map_of_mem he)
    exact fun name => (run_kept schedule sorted _ hpast).bounded name
  · intro t past rawName text hwritten s
    have hkept := (run_kept schedule sorted t past).updateCooldown
    have hsend := sendChannel_eq hkept.node t rawName hwritten
    simp only at hsend
    rw [hsend, decide_eq_true_eq, updateCooldown_times, inWindow_inWindow, channelCooldownFor, updateCooldown_shown]
    cases hname : (Runs.run advance started schedule).gates.channelSendTimes[normalizeChannel rawName]? with
    | none =>
      rw [times, hname]
      exact iff_of_true ((run_kept schedule sorted t past).unused _ hname) (show 0 < channelBurst by decide)
    | some ts =>
      rw [times, hname]
      apply remaining_eq_zero_iff (inWindow_head t ts)
      intro u hu
      apply hkept.times_past (normalizeChannel rawName)
      rw [updateCooldown_times, times, hname]
      exact hu

end Screen
end BleController
end CockroachChat

namespace CockroachChat.Reference
open BleController BleController.Screen
attribute [local instance] prims

/-- Three messages to one channel, under two of its names. -/
def hurried : List (Millis × ScreenCall) :=
  [(0, .updateCooldown), (10, .sendChannel "general" "hi"), (20, .sendChannel "#General" "yo"), (20, .sendChannel "general" "hey")]

/-- Two of them are sent, and then the channel is closed and shows so. -/
theorem third_message_waits : sentOn "#general" hurried = [10, 20] ∧
    ((sentOn "#general" hurried).filter fun u => 10 ≤ u ∧ u < 10 + channelWindowMs).length ≤ channelBurst ∧
    (((Runs.run advance started hurried).updateCooldown 30).channelCooldownFor "general" = 10 ∧
      (((Runs.run advance started hurried).updateCooldown 30).sendChannel 30 "general" "hey").2 ≠ true) := by
  have hshown : ((Runs.run advance started hurried).updateCooldown 30).channelCooldownFor "general" = 10 := by decide +kernel
  obtain ⟨hbounded, hshows⟩ := send_window hurried (by decide)
  refine ⟨by decide +kernel, hbounded "#general" 10, hshown, fun hsent => ?_⟩
  have hzero := (hshows 30 (by decide) "general" "hey" (by decide)).mpr hsent
  rw [hshown] at hzero
  cases hzero

end CockroachChat.Reference
