import CockroachChat.Foundations.Trimming
import CockroachChat.Stores.Authorship

/-! # One channel under many names

The core and the app each bring a channel name into a normal form, the app by a rule of its own. A
history is read under the name as it is given. -/
namespace CockroachChat
set_option autoImplicit false

/-! ## The name in the app -/

namespace BleController

/-- `Char.isWhitespace`. -/
def isWhitespace (c : Char) : Bool :=
  let n := c.toNat
  (0x09 ≤ n && n ≤ 0x0D) || (0x1C ≤ n && n ≤ 0x20) || n == 0xA0 || n == 0x1680 || (0x2000 ≤ n && n ≤ 0x200A) ||
  n == 0x2028 || n == 0x2029 || n == 0x202F || n == 0x205F || n == 0x3000

def trim (s : List Char) : List Char :=
  ((s.dropWhile isWhitespace).reverse.dropWhile isWhitespace).reverse

/-- `removePrefix("#")`. -/
def removeHash : List Char → List Char
  | '#' :: s => s
  | s => s

def normalizeChannel [P : Prims] (name : String) : String :=
  "#" ++ P.toLowercase (String.ofList (trim (removeHash (trim name.toList))))

end BleController

/-- What is left of a name in the core, before it is lower-cased. -/
def bareName (m : List Char) : List Char := (trim m).dropWhile (· == '#')

/-- What is left of a name in the app. -/
def BleController.bareName (m : List Char) : List Char := trim (removeHash (trim m))

/-- What either rule may take away. -/
def isDelimiter (c : Char) : Bool := isWhitespace c || BleController.isWhitespace c || c == '#'

/-- Both rules trim the name alike, and after a first hash there is neither another one nor a space of the app's. -/
def Mirrored (m : String) : Prop :=
  BleController.trim m.toList = trim m.toList ∧
    ((trim m.toList).head? = some '#' → ∀ c ∈ (trim m.toList).tail.head?, c ≠ '#' ∧ ¬BleController.isWhitespace c)

instance : DecidablePred Mirrored := fun m =>
  have : Decidable (∀ c ∈ (trim m.toList).tail.head?, c ≠ '#' ∧ ¬BleController.isWhitespace c) := Option.decidableForallMem _
  inferInstanceAs (Decidable (_ ∧ (_ → _)))

theorem trim_eq_strip : trim = Trimming.strip isWhitespace := rfl
theorem BleController.trim_eq_strip : BleController.trim = Trimming.strip BleController.isWhitespace := rfl

theorem exists_bareName (m : List Char) : ∃ front hashes back, m = front ++ (hashes ++ bareName m) ++ back ∧
    trim m = hashes ++ bareName m ∧ (∀ c ∈ front, isWhitespace c) ∧ (∀ c ∈ hashes, c = '#') ∧
      ∀ c ∈ back, isWhitespace c := by
  obtain ⟨front, back, hm, hfront, hback⟩ := Trimming.exists_strip isWhitespace m
  have htrim : trim m = (trim m).takeWhile (· == '#') ++ bareName m := List.takeWhile_append_dropWhile.symm
  refine ⟨front, (trim m).takeWhile (· == '#'), back, ?_, htrim, hfront, fun c hc => ?_, hback⟩
  · rw [← htrim]
    exact hm
  · simpa using List.mem_takeWhile_imp hc

theorem head?_bareName (m : List Char) : ∀ c ∈ (bareName m).head?, c ≠ '#' := by
  intro c hc
  have hnot := List.head?_dropWhile_not (· == '#') (trim m)
  rw [show (trim m).dropWhile (· == '#') = bareName m from rfl, hc] at hnot
  simpa using hnot

theorem getLast?_bareName (m : List Char) : ∀ c ∈ (bareName m).getLast?, ¬isWhitespace c := by
  intro c hc
  obtain ⟨-, hashes, -, -, htrim, -⟩ := exists_bareName m
  apply Trimming.getLast?_strip isWhitespace m
  rw [← trim_eq_strip, htrim]
  exact List.mem_getLast?_append_of_mem_getLast? hc

theorem hash_notMem {l : List Char} (h : ∀ c ∈ l, isWhitespace c) : '#' ∉ l := fun hmem => absurd (h _ hmem) (by decide)

namespace BleController

theorem head?_bareName (m : List Char) : ∀ c ∈ (bareName m).head?, ¬isWhitespace c := Trimming.head?_strip _ _

theorem getLast?_bareName (m : List Char) : ∀ c ∈ (bareName m).getLast?, ¬isWhitespace c := Trimming.getLast?_strip _ _

theorem hash_notMem {l : List Char} (h : ∀ c ∈ l, isWhitespace c) : '#' ∉ l := fun hmem => absurd (h _ hmem) (by decide)

theorem removeHash_cases (s : List Char) : s = removeHash s ∧ s.head? ≠ some '#' ∨ s = '#' :: removeHash s := by
  unfold removeHash
  split
  · exact .inr rfl
  · next h =>
    refine .inl ⟨rfl, fun hhead => ?_⟩
    cases s with
    | nil => cases hhead
    | cons c s =>
      cases hhead
      exact h s rfl

/-- A hash is the first of what the app takes off, with the spaces behind it. -/
theorem exists_bareName (m : List Char) : ∃ front hash back, m = front ++ (hash ++ bareName m) ++ back ∧
    trim m = hash ++ bareName m ∧ (∀ c ∈ front, isWhitespace c) ∧
      (hash = [] ∨ ∃ spaces, hash = '#' :: spaces ∧ (∀ c ∈ spaces, isWhitespace c) ∧ (bareName m = [] → spaces = [])) ∧
      ∀ c ∈ back, isWhitespace c := by
  obtain ⟨front, back, hm, hfront, hback⟩ := Trimming.exists_strip isWhitespace m
  have hlast := Trimming.getLast?_strip isWhitespace m
  have hhead := Trimming.head?_strip isWhitespace m
  rw [← trim_eq_strip] at hm hlast hhead
  rcases removeHash_cases (trim m) with ⟨hsame, -⟩ | hhash
  · have hbare : bareName m = trim m := by
      rw [bareName, ← hsame]
      exact Trimming.strip_eq_self hhead hlast
    exact ⟨front, [], back, by rw [hbare]; exact hm, hbare.symm, hfront, .inl rfl, hback⟩
  · set rest := removeHash (trim m) with hrest
    have hend : ∀ c ∈ rest.getLast?, ¬isWhitespace c := by
      intro c hc
      apply hlast
      rw [hhash]
      exact List.mem_getLast?_cons hc
    have hbare : bareName m = rest.dropWhile isWhitespace := Trimming.strip_of_getLast hend
    have hsplit : trim m = ('#' :: rest.takeWhile isWhitespace) ++ bareName m := by
      rw [hbare, List.cons_append, List.takeWhile_append_dropWhile]
      exact hhash
    refine ⟨front, _, back, ?_, hsplit, hfront, .inr ⟨_, rfl, fun c hc => List.mem_takeWhile_imp hc, fun hnil => ?_⟩, hback⟩
    · rw [← hsplit]
      exact hm
    · have hall := List.dropWhile_eq_nil_iff.mp (hbare.symm.trans hnil)
      cases hgot : rest.getLast? with
      | none => simp [List.getLast?_eq_none_iff.mp hgot]
      | some c => exact absurd (hall c (List.mem_of_getLast? hgot)) (hend c hgot)

/-- Where a hash is taken off and the name goes on, nothing else was taken off with it. -/
theorem bareName_of_mirrored {m : String} (h : Mirrored m) : bareName m.toList = CockroachChat.bareName m.toList := by
  obtain ⟨htrim, hnext⟩ := h
  have hhead := Trimming.head?_strip isWhitespace m.toList
  have hlast := Trimming.getLast?_strip isWhitespace m.toList
  rw [← trim_eq_strip, htrim] at hhead hlast
  unfold bareName CockroachChat.bareName
  rw [htrim, trim_eq_strip]
  rcases removeHash_cases (CockroachChat.trim m.toList) with ⟨hsame, hother⟩ | hhash
  · rw [← hsame, Trimming.strip_eq_self hhead hlast, List.dropWhile_beq_eq_self_of_head?_ne hother]
  · obtain ⟨rest, hrest⟩ : ∃ rest, CockroachChat.trim m.toList = '#' :: rest := ⟨_, hhash⟩
    rw [hrest] at hnext hlast ⊢
    change Trimming.strip isWhitespace rest = rest.dropWhile (· == '#')
    cases rest with
    | nil => rfl
    | cons c rest =>
      obtain ⟨hnoHash, hnoSpace⟩ := hnext rfl c rfl
      have hend : ∀ d ∈ (c :: rest).getLast?, ¬isWhitespace d := fun d hd => hlast d (List.mem_getLast?_cons hd)
      rw [List.dropWhile_cons_of_neg (by simpa using hnoHash)]
      exact Trimming.strip_eq_self (by simpa using hnoSpace) hend

end BleController

/-! ## When the two names agree -/

/-- The first hash is where the spaces in front end. -/
theorem hashes_eq {front front' hashes hash : List Char} (h : front ++ hashes = front' ++ hash) (hfront : '#' ∉ front)
    (hfront' : '#' ∉ front') (hhashes : ∀ c ∈ hashes, c = '#') (hhash : hash = [] ∨ ∃ spaces, hash = '#' :: spaces) :
    hashes = hash := by
  have hdrop : ∀ {a b : List Char}, '#' ∉ a → (b = [] ∨ ∃ rest, b = '#' :: rest) → (a ++ b).dropWhile (· != '#') = b := by
    intro a b ha hb
    rw [List.dropWhile_append_of_pos fun c hc => by simpa using ne_of_mem_of_not_mem hc ha]
    rcases hb with rfl | ⟨rest, rfl⟩ <;> simp
  have hstart : hashes = [] ∨ ∃ rest, hashes = '#' :: rest := by
    cases hashes with
    | nil => exact .inl rfl
    | cons c rest => exact .inr ⟨rest, by rw [hhashes c List.mem_cons_self]⟩
  rw [← hdrop hfront hstart, h, hdrop hfront' hhash]

theorem mirrored_of_bareName {m : String} (h : BleController.bareName m.toList = bareName m.toList) : Mirrored m := by
  obtain ⟨front, hashes, back, hm, htrim, hfront, hhashes, hback⟩ := exists_bareName m.toList
  obtain ⟨front', hash, back', hm', htrim', hfront', hhash, hback'⟩ := BleController.exists_bareName m.toList
  have hsame : hashes = hash := by
    have hwhole := hm.symm.trans hm'
    rw [h] at hwhole
    rcases List.eq_nil_or_concat (bareName m.toList) with hnil | ⟨init, c, hc⟩
    · -- nothing is left, so the hashes are all there are in the name
      have hnone : ∀ {l : List Char}, '#' ∉ l → l.filter (· == '#') = [] := fun hl =>
        List.filter_eq_nil_iff.mpr fun c hc => by simpa using ne_of_mem_of_not_mem hc hl
      have hall : hashes.filter (· == '#') = hashes := List.filter_eq_self.mpr fun c hc => by simpa using hhashes c hc
      have hone : hash.filter (· == '#') = hash := by
        rcases hhash with rfl | ⟨spaces, rfl, -, hnoSpaces⟩
        · rfl
        · rw [hnoSpaces (h.trans hnil)]
          rfl
      have hcount := congrArg (List.filter (· == '#')) hwhole
      simpa [List.filter_append, hnil, hall, hone, hnone (hash_notMem hfront), hnone (hash_notMem hback),
        hnone (BleController.hash_notMem hfront'), hnone (BleController.hash_notMem hback')] using hcount
    · have hlast : c ∈ (bareName m.toList).getLast? := by simp [hc]
      have hnotBack : c ∉ back := fun hmem => getLast?_bareName _ c hlast (hback c hmem)
      have hnotBack' : c ∉ back' := fun hmem => BleController.getLast?_bareName m.toList c (h ▸ hlast) (hback' c hmem)
      rw [hc] at hwhole
      have hmark : (front ++ hashes ++ init) ++ c :: back = (front' ++ hash ++ init) ++ c :: back' := by simpa using hwhole
      have hfronts := List.append_cancel_right (Trimming.eq_of_mark hmark hnotBack hnotBack').1
      exact hashes_eq hfronts (hash_notMem hfront) (BleController.hash_notMem hfront') hhashes
        (hhash.imp_right fun ⟨spaces, hs, _⟩ => ⟨spaces, hs⟩)
  subst hsame
  refine ⟨by rw [htrim', htrim, h], fun hfirst c hc => ?_⟩
  rw [htrim] at hfirst hc
  rcases hhash with rfl | ⟨spaces, rfl, hspaces, -⟩
  · exact absurd rfl (head?_bareName m.toList '#' hfirst)
  · have hempty : spaces = [] := by
      cases spaces with
      | nil => rfl
      | cons d spaces =>
        have hd := hspaces d List.mem_cons_self
        rw [hhashes d (List.mem_cons_of_mem _ List.mem_cons_self)] at hd
        exact absurd hd (by decide)
    rw [hempty, List.singleton_append, List.tail_cons] at hc
    exact ⟨head?_bareName _ c hc, BleController.head?_bareName m.toList c (h ▸ hc)⟩

/-! ## Lower case -/

/-- What the lower-case mapping of Unicode does, apart from the letters: delimiters are left as they are, and no
other character becomes one or begins or ends with one. -/
structure CaseLaws (P : Prims) : Prop where
  lower_lower : ∀ s, P.toLowercase (P.toLowercase s) = P.toLowercase s
  leading : ∀ s, (P.toLowercase s).toList.takeWhile isDelimiter = s.toList.takeWhile isDelimiter
  trailing : ∀ s, (P.toLowercase s).toList.rtakeWhile isDelimiter = s.toList.rtakeWhile isDelimiter

section Lower
variable [P : Prims]

theorem normalize_eq (m : String) : normalize m = "#" ++ P.toLowercase (String.ofList (bareName m.toList)) := rfl

theorem BleController.normalizeChannel_eq (m : String) :
    normalizeChannel m = "#" ++ P.toLowercase (String.ofList (bareName m.toList)) := rfl

namespace CaseLaws
variable (L : CaseLaws P)
include L

theorem head?_of_delimiter {s : String} {c : Char} (hc : c ∈ (P.toLowercase s).toList.head?) (hd : isDelimiter c) :
    c ∈ s.toList.head? := by
  have hrun := congrArg List.head? (L.leading s)
  rw [List.head?_takeWhile, List.head?_takeWhile, hc, Option.filter_some, if_pos hd] at hrun
  exact Option.eq_some_of_filter_eq_some hrun.symm

theorem getLast?_of_delimiter {s : String} {c : Char} (hc : c ∈ (P.toLowercase s).toList.getLast?) (hd : isDelimiter c) :
    c ∈ s.toList.getLast? := by
  have hrun := congrArg List.head? (List.reverse_injective (L.trailing s))
  rw [List.head?_takeWhile, List.head?_takeWhile, List.head?_reverse, List.head?_reverse, hc, Option.filter_some, if_pos hd] at hrun
  exact Option.eq_some_of_filter_eq_some hrun.symm

/-- Two parts of a name with only delimiters around them have the same lower case only if they are the same. -/
theorem bareName_of_lower {m : List Char}
    (h : P.toLowercase (String.ofList (BleController.bareName m)) = P.toLowercase (String.ofList (bareName m))) :
    BleController.bareName m = bareName m := by
  obtain ⟨front, hashes, back, hm, -, hfront, hhashes, hback⟩ := exists_bareName m
  obtain ⟨front', hash, back', hm', -, hfront', hhash, hback'⟩ := BleController.exists_bareName m
  have hruns : (front' ++ hash) ++ BleController.bareName m ++ back' = (front ++ hashes) ++ bareName m ++ back := by
    simpa using hm'.symm.trans hm
  have hout : ∀ c ∈ front ++ hashes, isDelimiter c := by
    intro c hc
    rcases List.mem_append.mp hc with hspace | hhashmark
    · simp [isDelimiter, hfront c hspace]
    · simp [isDelimiter, hhashes c hhashmark]
  have hout' : ∀ c ∈ front' ++ hash, isDelimiter c := by
    intro c hc
    rcases List.mem_append.mp hc with hspace | hhashmark
    · simp [isDelimiter, hfront' c hspace]
    · rcases hhash with rfl | ⟨spaces, rfl, hspaces, -⟩
      · cases hhashmark
      · rcases List.mem_cons.mp hhashmark with rfl | hspace
        · rfl
        · simp [isDelimiter, hspaces c hspace]
  apply Trimming.eq_of_runs hruns hout' hout (fun c hc => by simp [isDelimiter, hback' c hc]) fun c hc => by
    simp [isDelimiter, hback c hc]
  · have hlead := L.leading (String.ofList (BleController.bareName m))
    rw [h, L.leading] at hlead
    simpa using hlead.symm
  · have htrail := L.trailing (String.ofList (BleController.bareName m))
    rw [h, L.trailing] at htrail
    simpa using htrail.symm

theorem normalizeChannel_iff (m : String) : BleController.normalizeChannel m = normalize m ↔ Mirrored m := by
  rw [BleController.normalizeChannel_eq, normalize_eq]
  constructor
  · intro h
    apply mirrored_of_bareName
    apply L.bareName_of_lower
    simpa using h
  · intro h
    rw [BleController.bareName_of_mirrored h]

theorem normalize_idempotent (m : String) : normalize (normalize m) = normalize m := by
  set name := String.ofList (bareName m.toList)
  have hhead : ∀ c ∈ (P.toLowercase name).toList.head?, c ≠ '#' := by
    rintro c hc rfl
    have hin := L.head?_of_delimiter hc (by rfl)
    exact head?_bareName m.toList '#' (by simpa [name] using hin) rfl
  have hlast : ∀ c ∈ ('#' :: (P.toLowercase name).toList).getLast?, ¬isWhitespace c := by
    intro c hc hspace
    rw [List.getLast?_cons] at hc
    cases hgot : (P.toLowercase name).toList.getLast? with
    | none =>
      rw [hgot, Option.getD_none, Option.mem_some_iff] at hc
      rw [← hc] at hspace
      exact absurd hspace (by decide)
    | some d =>
      rw [hgot, Option.getD_some, Option.mem_some_iff] at hc
      have hin := L.getLast?_of_delimiter hgot (by simp [isDelimiter, hc, hspace])
      rw [hc] at hin
      exact getLast?_bareName m.toList c (by simpa [name] using hin) hspace
  have hbare : bareName (normalize m).toList = (P.toLowercase name).toList := by
    have hlist : (normalize m).toList = '#' :: (P.toLowercase name).toList := by
      rw [normalize_eq, String.toList_append]
      rfl
    rw [hlist, bareName, trim_eq_strip, Trimming.strip_eq_self (by rintro c ⟨⟩; decide) hlast,
      List.dropWhile_cons_of_pos (by rfl)]
    exact List.dropWhile_beq_eq_self_of_head?_ne fun h => hhead '#' h rfl
  rw [normalize_eq (normalize m), hbare, String.ofList_toList, L.lower_lower, normalize_eq]

end CaseLaws

/-! ## One channel under two names -/

namespace MeshNode
variable {S : Type} [Store S]

/-- The three channel calls of the app, with what they return. -/
structure SameChannel (s : MeshNode S) (n n' : String) : Prop where
  join : s.joinChannel n = s.joinChannel n'
  send : ∀ text, s.sendChannelMessage n text = s.sendChannelMessage n' text ∧
    (s.ownMessage n text).digest = (s.ownMessage n' text).digest
  history : ∀ limit, s.ffiChannelHistory n limit = s.ffiChannelHistory n' limit

variable {n n' : String}

omit [Store S] in
theorem joinChannel_congr (s : MeshNode S) (h : normalize n = normalize n') : s.joinChannel n = s.joinChannel n' := by
  rw [joinChannel, joinChannel, h]

theorem sendChannelMessage_congr (s : MeshNode S) (h : normalize n = normalize n') (text : String) :
    s.sendChannelMessage n text = s.sendChannelMessage n' text ∧ (s.ownMessage n text).digest = (s.ownMessage n' text).digest := by
  unfold sendChannelMessage ownMessage
  rw [h]
  exact ⟨rfl, rfl⟩

/-- A node that holds one message, under this name. -/
def holding (s : MeshNode MemoryStore) (n : String) : MeshNode MemoryStore :=
  let row : StoredMessage :=
    { digest := Vector.replicate 8 0, channel := n, sender := Vector.replicate 8 0, timestampMs := 0, body := [], raw := [] }
  { s with store := { s.store with channels := (∅ : Std.ExtTreeMap String (List StoredMessage)).insert n [row] } }

theorem holding_history (s : MeshNode MemoryStore) (n n' : String) :
    ((s.holding n).ffiChannelHistory n' 1).length = if n = n' then 1 else 0 := by
  unfold ffiChannelHistory
  rw [List.length_map]
  change (MemoryStore.lastN 1 (MemoryStore.sortByTime _ ((Std.ExtTreeMap.insert _ n _)[n']?.getD []))).length = _
  rw [Std.ExtTreeMap.getElem?_insert]
  by_cases h : n = n'
  · simp [h, MemoryStore.lastN, MemoryStore.sortByTime]
  · simp [h, MemoryStore.lastN, MemoryStore.sortByTime]

end MeshNode
end Lower
end CockroachChat

namespace CockroachChat.Reference
open MeshNode
attribute [local instance] prims

theorem caseLaws : CaseLaws prims := ⟨fun _ => rfl, fun _ => rfl, fun _ => rfl⟩

end CockroachChat.Reference
