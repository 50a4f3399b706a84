import Synapse.PythonText
import Synapse.Dict
import Synapse.Runs

/-!
# Pending read receipts

The receipts for a destination are packed into EDUs, each with one entry for a room,
a receipt type and a user. The thread of an entry is looked up beside its data, where
it never is: an unthreaded receipt replaces the first entry, whatever its thread, and
a threaded receipt replaces none.
-/

set_option autoImplicit false

namespace Synapse.PendingReceipts
open List Python Dict Runs AList

structure ReadReceipt where
  roomId : String
  receiptType : String
  userId : String
  eventIds : List String
  threadId : Option String
  data : JsonDict

namespace ReadReceipt

abbrev Key := String × String × String

def key (receipt : ReadReceipt) : Key := (receipt.roomId,receipt.receiptType,receipt.userId)

def serialized (receipt : ReadReceipt) : JsonDict :=
  [("event_ids",.array (receipt.eventIds.map .str)),
    ("data",.object (match receipt.threadId with
      | none => receipt.data
      | some threadId => PythonText.setItem receipt.data ("thread_id",.str threadId)))]

end ReadReceipt

open ReadReceipt

/-- The content of an EDU: its dictionaries by room, receipt type and user as one. -/
abbrev Edu := Dict Key JsonDict

/-- The user has no entry yet, or one with the thread of the receipt. -/
def fits (receipt : ReadReceipt) (edu : Edu) : Bool :=
  match edu.lookup receipt.key with
  | none => true
  | some held => Json.same (Json.getD held "thread_id" .null) (receipt.threadId.elim .null .str)

def queueReadReceipt (receipt : ReadReceipt) : List Edu → List Edu
  | [] => [AList.insert receipt.key receipt.serialized ∅]
  | edu::edus =>
    if fits receipt edu then edu.insert receipt.key receipt.serialized::edus
    else edu::queueReadReceipt receipt edus

def pending (edus : List Edu) (key : Key) : List JsonDict := edus.filterMap (AList.lookup key)

/-- The receipts that no later one of the same thread follows. -/
def latest : List ReadReceipt → List ReadReceipt
  | [] => []
  | receipt::rest =>
    if ∃ later ∈ rest, later.threadId = receipt.threadId then latest rest else receipt::latest rest

/-- No thread has two receipts, and unthreaded ones come first or not at all. -/
def Separate (receipts : List ReadReceipt) : Prop :=
  (receipts.filterMap threadId).Nodup ∧
    ∀ first ∈ receipts.head?, first.threadId = none ∨ ∀ receipt ∈ receipts, receipt.threadId ≠ none

variable {r u : ReadReceipt} {rs : List ReadReceipt} {key : Key} {edus : List Edu}
  {l : List JsonDict}

/-- Where a receipt goes among those of its room, type and user. -/
def place (held : List JsonDict) (receipt : ReadReceipt) : List JsonDict :=
  if receipt.threadId = none ∧ held ≠ [] then receipt.serialized::held.tail
  else held ++ [receipt.serialized]

/-- The first EDUs have the entries, none of which shows a thread. -/
inductive Holds (key : Key) : List Edu → List JsonDict → Prop
  | free {edus : List Edu} (h : ∀ edu ∈ edus, edu.lookup key = none) : Holds key edus []
  | entry {edu : Edu} {edus : List Edu} {e : JsonDict} {l : List JsonDict}
    (h : edu.lookup key = some e) (ht : e.lookup "thread_id" = none) (hr : Holds key edus l) :
    Holds key (edu::edus) (e::l)

theorem Holds.other (h : Holds key edus l) (hk : key ≠ r.key) :
    Holds key (queueReadReceipt r edus) l := by
  induction h with
  | @free edus h =>
    refine .free ?_
    induction edus with
    | nil => exact forall_mem_singleton.mpr (lookup_insert_ne hk)
    | cons edu edus ih =>
      rw [forall_mem_cons] at h
      rw [queueReadReceipt]
      split
      · simpa [hk] using h
      · exact forall_mem_cons.mpr ⟨h.1,ih h.2⟩
  | @entry edu edus e l h ht hr ih =>
    rw [queueReadReceipt]
    split
    · exact .entry (by rwa [lookup_set,if_neg hk]) ht hr
    · exact .entry h ht ih

theorem Holds.own (h : Holds r.key edus l) : Holds r.key (queueReadReceipt r edus) (place l r) := by
  induction h with
  | @free edus h =>
    rw [place,if_neg (by simp)]
    cases edus with
    | nil => exact .entry (lookup_insert _) rfl (.free (by simp))
    | cons edu edus =>
      rw [forall_mem_cons] at h
      rw [queueReadReceipt,fits,h.1]
      exact .entry (lookup_insert _) rfl (.free h.2)
  | @entry edu edus e l h ht hr ih =>
    have hf : fits r edu = decide (r.threadId = none) := by
      rw [fits,h]
      dsimp only
      rw [Json.getD,ht]
      cases r.threadId <;> simp [Json.same,Json.number]
    rw [queueReadReceipt,hf]
    by_cases hu : r.threadId = none
    · simpa [place,hu] using Holds.entry (lookup_insert edu) rfl hr
    · simpa [place,hu] using Holds.entry h ht ih

theorem Holds.run (h : Holds key edus l) (rs : List ReadReceipt) :
    Holds key (run queueReadReceipt rs edus) ((rs.filter (·.key = key)).foldl place l) := by
  induction rs generalizing edus l with
  | nil => exact h
  | cons r rs ih =>
    by_cases hk : r.key = key
    · subst hk
      rw [filter_cons_of_pos (by simp)]
      exact ih h.own
    · rw [filter_cons_of_neg (by simpa using hk)]
      exact ih (h.other (Ne.symm hk))

theorem Holds.pending_eq (h : Holds key edus l) : pending edus key = l := by
  induction h with
  | free h => exact filterMap_eq_nil_iff.mpr h
  | entry h ht hr ih => exact (filterMap_cons_some h).trans (congrArg _ ih)

theorem foldl_place_unthreaded (hu : u.threadId = none) (hn : (rs.filterMap threadId).Nodup) :
    (rs.foldl place (u.serialized::l)).Perm ((latest (u::rs)).map serialized ++ l) := by
  induction rs generalizing u l with
  | nil => exact .refl _
  | cons r rs ih =>
    rw [foldl_cons,latest]
    by_cases ht : r.threadId = none
    · rw [if_pos ⟨r,mem_cons_self,ht.trans hu.symm⟩,place,if_pos ⟨ht,cons_ne_nil _ _⟩]
      rw [filterMap_cons_none ht] at hn
      exact ih ht hn
    · obtain ⟨th,hth⟩ := Option.ne_none_iff_exists'.mp ht
      rw [filterMap_cons_some hth,nodup_cons,mem_filterMap,← hth] at hn
      have hc : (∃ r' ∈ r::rs, r'.threadId = u.threadId) ↔ ∃ r' ∈ rs, r'.threadId = u.threadId := by
        simp [hu,ht]
      rw [place,if_neg (fun h => ht h.1)]
      have hl : (latest (u::rs)).map serialized ++ (l ++ [r.serialized]) ~
          r.serialized::((latest (u::rs)).map serialized ++ l) := by
        rw [← append_assoc]
        exact perm_append_singleton _ _
      refine ((ih hu hn.2).trans hl).trans ?_
      rw [latest,latest,if_neg hn.1]
      simp only [hc]
      split
      · exact .refl _
      · exact .swap _ _ _

theorem foldl_place_threaded (ht : ∀ r ∈ rs, r.threadId ≠ none)
    (hn : (rs.filterMap threadId).Nodup) : rs.foldl place l = l ++ (latest rs).map serialized := by
  induction rs generalizing l with
  | nil => simp [latest]
  | cons r rs ih =>
    rw [forall_mem_cons] at ht
    obtain ⟨th,hth⟩ := Option.ne_none_iff_exists'.mp ht.1
    rw [filterMap_cons_some hth,nodup_cons,mem_filterMap,← hth] at hn
    rw [foldl_cons,ih ht.2 hn.2,latest,if_neg hn.1,place,if_neg (fun h => ht.1 h.1)]
    simp

theorem foldl_place_latest (h : Separate rs) :
    (rs.foldl place []).Perm ((latest rs).map serialized) := by
  obtain ⟨hn,hf⟩ := h
  cases rs with
  | nil => exact .refl _
  | cons first rest =>
    rcases hf first rfl with hu | ht
    · rw [filterMap_cons_none hu] at hn
      simpa [place] using foldl_place_unthreaded (l := []) hu hn
    · rw [foldl_place_threaded ht hn]
      exact .refl _

theorem latest_threads (rs : List ReadReceipt) :
    (latest rs).map threadId = (rs.map threadId).dedup := by
  induction rs with
  | nil => rfl
  | cons r rs ih =>
    simp only [latest,map_cons,dedup_cons,mem_map]
    split <;> simp [ih]

theorem Separate.concat (h : Separate rs)
    (hr : (place (rs.foldl place []) r).Perm ((latest (rs ++ [r])).map serialized)) :
    Separate (rs ++ [r]) := by
  have hlen : ∀ rs, ((latest rs).map serialized).length = (rs.map threadId).toFinset.card := by
    intro rs
    rw [length_map,card_toFinset,← latest_threads,length_map]
  have hb := (foldl_place_latest h).length_eq.trans (hlen rs)
  have ha := hr.length_eq.trans (hlen _)
  rw [map_append,toFinset_append,Finset.union_comm,map_singleton,toFinset_cons,toFinset_nil,
    insert_empty_eq,← Finset.insert_eq] at ha
  obtain ⟨hn,hf⟩ := h
  cases rs with
  | nil => cases hrt : r.threadId <;> exact ⟨by simp [hrt],by simp [hrt]⟩
  | cons f rs =>
    have hne : (f::rs).foldl place [] ≠ [] := by
      rintro he
      rw [he,map_cons,toFinset_cons] at hb
      exact absurd hb (Finset.card_pos.mpr (Finset.insert_nonempty _ _)).ne
    rw [Separate,filterMap_append]
    cases hrt : r.threadId with
    | none =>
      have hin : none ∈ ((f::rs).map threadId).toFinset := by
        by_contra hin
        rw [place,if_pos ⟨hrt,hne⟩,length_cons,length_tail,hrt,
          Finset.card_insert_of_notMem hin] at ha
        have := length_pos_iff.mpr hne
        omega
      obtain ⟨u,hu,hut⟩ := mem_map.mp (mem_toFinset.mp hin)
      refine ⟨by simpa [filterMap_cons_none hrt] using hn,fun first hfirst => .inl ?_⟩
      exact (hf first hfirst).resolve_right (fun hall => hall u hu hut)
    | some th =>
      have hin : some th ∉ (f::rs).map threadId := by
        intro hin
        rw [place,hrt,if_neg (by simp),length_append,hb,
          Finset.insert_eq_of_mem (mem_toFinset.mpr hin)] at ha
        simp at ha
      refine ⟨?_,fun first hfirst => (hf first hfirst).imp_right (fun hall => ?_)⟩
      · rw [filterMap_cons_some hrt,filterMap_nil,nodup_append_comm]
        exact nodup_cons.mpr ⟨fun hth => hin (mem_map.mpr (mem_filterMap.mp hth)),hn⟩
      · exact forall_mem_append.mpr ⟨hall,by simp [hrt]⟩

/-- The EDUs hold the last receipt of each thread of a room, type and user, and each once,
whenever one is queued, exactly if the receipts are separate. -/
theorem pending_latest (receipts : List ReadReceipt) (key : Key) :
    (∀ before, before <+: receipts → (pending (run queueReadReceipt before []) key).Perm
      ((latest (before.filter (·.key = key))).map serialized)) ↔
    Separate (receipts.filter (·.key = key)) := by
  have hempty : Holds key [] [] := .free (by simp)
  simp only [fun before => (hempty.run before).pending_eq]
  trans ∀ before, before <+: receipts.filter (·.key = key) →
    (before.foldl place []).Perm ((latest before).map serialized)
  · simp only [prefix_filter_iff]
    exact ⟨fun h _ ⟨before,hb,heq⟩ => heq ▸ h before hb,fun h before hb => h _ ⟨before,hb,rfl⟩⟩
  generalize receipts.filter (·.key = key) = own
  constructor
  · intro h
    induction own using reverseRecOn with
    | nil => exact ⟨by simp,by simp⟩
    | append_singleton own r ih =>
      refine (ih fun before hb => h before (hb.trans (prefix_append _ _))).concat ?_
      simpa using h _ (prefix_refl _)
  · rintro ⟨hn,hf⟩ before ⟨rest,rfl⟩
    refine foldl_place_latest ⟨hn.sublist ((sublist_append_left _ _).filterMap _),?_⟩
    cases before with
    | nil => simp
    | cons f before =>
      intro first hfirst
      exact (hf first hfirst).imp_right (fun hall r hr => hall r (mem_append_left _ hr))

def receiptOf (eventId : String) (threadId : Option String) : ReadReceipt :=
  ⟨"!room","m.read","@user",[eventId],threadId,[]⟩

theorem pending_latest_separate :
    (pending (run queueReadReceipt [receiptOf "$1" none,receiptOf "$2" (some "$t"),
      receiptOf "$3" none] []) ("!room","m.read","@user")).Perm
        ([receiptOf "$2" (some "$t"),receiptOf "$3" none].map serialized) :=
  (pending_latest [receiptOf "$1" none,receiptOf "$2" (some "$t"),receiptOf "$3" none]
    ("!room","m.read","@user")).mpr ⟨by decide,by decide⟩ _ (prefix_refl _)

def threadFirst : List ReadReceipt := [receiptOf "$1" (some "$t"),receiptOf "$2" none]

/-- The receipt of the thread is lost. -/
theorem threaded_receipt_lost :
    pending (run queueReadReceipt threadFirst []) ("!room","m.read","@user") =
        [(receiptOf "$2" none).serialized] ∧ latest threadFirst = threadFirst ∧
      ¬(pending (run queueReadReceipt threadFirst []) ("!room","m.read","@user")).Perm
        ((latest (threadFirst.filter (·.key = ("!room","m.read","@user")))).map serialized) :=
  ⟨rfl,rfl,fun h => absurd h.length_eq (by decide)⟩

end Synapse.PendingReceipts
