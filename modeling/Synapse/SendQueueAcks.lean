import Synapse.FederationSendQueue

/-!
# Acknowledgements of the federation send queue

Queueing never takes a row away. An acknowledgement takes away the rows before
the least position of the instances heard from, which is what all instances
have acknowledged once all of them have been heard from, and not before.
-/

set_option autoImplicit false

namespace Synapse.FederationSendQueue
open List Dict Option AList

open Presence (UserPresenceState)

variable {C : Type}

theorem rowAt_clearQueueBeforePos (q : RemoteSendQueue C) (tk pos : ℕ) :
    rowAt (clearQueueBeforePos tk q) pos = if pos < tk then none else rowAt q pos := by
  rw [rowAt,clearQueueBeforePos]
  simp only [SortedDict.get_dropBefore,lookup_filterKeys]
  by_cases hpos : pos < tk
  · simp [hpos]
  · simp only [if_neg hpos,rowAt]
    cases hp : q.presenceDestinations.get pos with
    | some row =>
      -- the position that is left keeps the state of its user
      have hl : row.1 ∈ (q.presenceDestinations.dropBefore tk).items.map
          (fun row => row.2.1) := by
        have hg : (q.presenceDestinations.dropBefore tk).get pos = some row := by
          rw [SortedDict.get_dropBefore,if_neg hpos,hp]
        exact mem_map.mpr ⟨(pos,row),(SortedDict.get_eq_some _ _ _).mp hg,rfl⟩
      simp [hl]
    | none =>
      cases hk : q.keyedEduChanged.get pos with
      | some key =>
        have hl : key ∈ (q.keyedEduChanged.dropBefore tk).items.map Prod.snd := by
          have hg : (q.keyedEduChanged.dropBefore tk).get pos = some key := by
            rw [SortedDict.get_dropBefore,if_neg hpos,hk]
          exact mem_map.mpr ⟨(pos,key),(SortedDict.get_eq_some _ _ _).mp hg,rfl⟩
        simp [hl]
      | none => cases q.edus.get pos <;> rfl

variable {pos : ℕ}

theorem rowAt_ne_none_of_values {q q' : RemoteSendQueue C}
    (hp : q'.presenceDestinations.get pos = q.presenceDestinations.get pos)
    (hc : q'.keyedEduChanged.get pos = q.keyedEduChanged.get pos)
    (he : q'.edus.get pos = q.edus.get pos)
    (hs : ∀ userId, userId ∈ q.presenceMap → userId ∈ q'.presenceMap)
    (hk : ∀ key, key ∈ q.keyedEdu → key ∈ q'.keyedEdu) (h : rowAt q pos ≠ none) :
    rowAt q' pos ≠ none := by
  rw [rowAt] at h ⊢
  rw [hp,hc,he]
  split at h
  · have hm := hs _ (lookup_isSome.mp (by simpa [isSome_iff_ne_none] using h))
    simpa [isSome_iff_ne_none] using lookup_isSome.mpr hm
  · have hm := hk _ (lookup_isSome.mp (by simpa [isSome_iff_ne_none] using h))
    simpa [isSome_iff_ne_none] using lookup_isSome.mpr hm
  · simp
  · exact absurd rfl h

def Fresh (q : RemoteSendQueue C) : Prop :=
  ∀ pos, q.pos ≤ pos → q.presenceDestinations.get pos = none ∧
    q.keyedEduChanged.get pos = none ∧ q.edus.get pos = none

variable {q : RemoteSendQueue C}

theorem Fresh.clear (h : Fresh q) (tk : ℕ) : Fresh (clearQueueBeforePos tk q) := by
  intro pos hpos
  obtain ⟨hp,hk,he⟩ := h pos hpos
  simp only [clearQueueBeforePos,SortedDict.get_dropBefore,hp,hk,he]
  simp

theorem Fresh.lt (h : Fresh q) (hr : rowAt q pos ≠ none) : pos < q.pos := by
  by_contra hle
  obtain ⟨hp,hk,he⟩ := h pos (not_lt.mp hle)
  rw [rowAt,hp,hk,he] at hr
  exact hr rfl

/-- What queueing does: new positions are used, and no row is lost. -/
structure Queues (q q' : RemoteSendQueue C) : Prop where
  instances : q'.senderInstances = q.senderInstances
  positions : q'.senderPositions = q.senderPositions
  fresh : Fresh q'
  rows : ∀ pos, rowAt q pos ≠ none → rowAt q' pos ≠ none

theorem Queues.refl (h : Fresh q) : Queues q q := ⟨rfl,rfl,h,fun _ h => h⟩

variable {q q' q'' : RemoteSendQueue C}

theorem Queues.trans (h : Queues q q') (h' : Queues q' q'') :
    Queues q q'' where
  instances := h'.instances.trans h.instances
  positions := h'.positions.trans h.positions
  fresh := h'.fresh
  rows := fun pos hr => h'.rows pos (h.rows pos hr)

structure Adds (now : ℕ) (q q' : RemoteSendQueue C) : Prop extends Queues q q' where
  le : q.pos ≤ q'.pos
  times : ∀ time pos, q'.posTime.get time = some pos →
    q.posTime.get time = some pos ∨ time = now ∧ pos < q'.pos
  added : ∀ pos, q.pos ≤ pos → pos < q'.pos → rowAt q' pos ≠ none

theorem Adds.refl (h : Fresh q) (now : ℕ) : Adds now q q :=
  ⟨.refl h,le_rfl,fun _ _ => .inl,fun _ hle hlt => absurd hlt (not_lt.mpr hle)⟩

theorem Adds.trans {now : ℕ} (h : Adds now q q') (h' : Adds now q' q'') : Adds now q q'' where
  toQueues := h.toQueues.trans h'.toQueues
  le := h.le.trans h'.le
  times := by
    intro time pos ht
    rcases h'.times time pos ht with ht | ht
    · rcases h.times time pos ht with ht | ⟨rfl,hlt⟩
      · exact .inl ht
      · exact .inr ⟨rfl,hlt.trans_le h'.le⟩
    · exact .inr ht
  added := by
    intro pos hle hlt
    by_cases hp : pos < q'.pos
    · exact h'.rows pos (h.added pos hle hp)
    · exact h'.added pos (not_lt.mp hp) hlt

theorem adds_of_next {now : ℕ} {q q' : RemoteSendQueue C} (h : Fresh q)
    (hi : q'.senderInstances = q.senderInstances) (hpo : q'.senderPositions = q.senderPositions)
    (hn : q'.pos = q.pos+1) (ht : q'.posTime = q.posTime.set now q.pos)
    (ho : ∀ pos, pos ≠ q.pos → q'.presenceDestinations.get pos = q.presenceDestinations.get pos ∧
      q'.keyedEduChanged.get pos = q.keyedEduChanged.get pos ∧ q'.edus.get pos = q.edus.get pos)
    (hs : ∀ userId, userId ∈ q.presenceMap → userId ∈ q'.presenceMap)
    (hk : ∀ key, key ∈ q.keyedEdu → key ∈ q'.keyedEdu) (hr : rowAt q' q.pos ≠ none) :
    Adds now q q' where
  instances := hi
  positions := hpo
  fresh := by
    intro pos hpos
    rw [hn] at hpos
    obtain ⟨hp,hc,he⟩ := ho pos (by omega)
    rw [hp,hc,he]
    exact h pos (by omega)
  rows := by
    intro pos hr
    have hlt := h.lt hr
    obtain ⟨hp,hc,he⟩ := ho pos (by omega)
    exact rowAt_ne_none_of_values hp hc he hs hk hr
  le := by omega
  times := by
    intro time pos hp
    rw [ht,SortedDict.get_set] at hp
    split at hp
    · cases hp
      exact .inr ⟨‹_›,by omega⟩
    · exact .inl hp
  added := by
    intro pos hle hlt
    obtain rfl : pos = q.pos := by omega
    exact hr

theorem buildAndSendEdu_adds (h : Fresh q) (now : ℕ) (dest eduType : String) (ct : C)
    (key : Option (List String)) : Adds now q (buildAndSendEdu now dest eduType ct key q) := by
  rw [buildAndSendEdu]
  split
  · exact .refl h now
  · obtain ⟨hp,hc,-⟩ := h q.pos le_rfl
    have hs : ∀ {V : Type} (d : SortedDict ℕ V) (v : V) (pos : ℕ), pos ≠ q.pos →
        (d.set q.pos v).get pos = d.get pos := by
      intro V d v pos hp
      rw [SortedDict.get_set,if_neg hp]
    match key with
    | none | some [] =>
      exact adds_of_next h rfl rfl rfl rfl (fun pos hp => ⟨rfl,rfl,hs _ _ pos hp⟩)
        (fun _ hmem => hmem) (fun _ hmem => hmem) (by simp [rowAt,nextPos,hp,hc,SortedDict.get_set])
    | some (part::parts) =>
      exact adds_of_next h rfl rfl rfl rfl (fun pos hp => ⟨rfl,hs _ _ pos hp,rfl⟩)
        (fun _ hmem => hmem) (fun _ hmem => mem_set.mpr (.inr hmem))
        (by simp [rowAt,nextPos,hp,SortedDict.get_set])

theorem mem_presenceMap {u : String} (sts : List UserPresenceState)
    (d : Dict String UserPresenceState) :
    u ∈ sts.foldl (fun d state => d.insert state.userId state) d ↔
      u ∈ d ∨ ∃ st ∈ sts, st.userId = u := by
  induction sts generalizing d with
  | nil => simp
  | cons st sts ih =>
    rw [foldl_cons,ih,Dict.mem_set,exists_mem_cons_iff]
    tauto

theorem sendPresenceToDestinations_adds (h : Fresh q) (now : ℕ) (sts : List UserPresenceState)
    (dests : List String) : Adds now q (sendPresenceToDestinations now sts dests q) := by
  apply foldlRecOn (motive := Adds now q) _ _ (.refl h now)
  intro q' hq' st hst
  apply hq'.trans
  refine adds_of_next hq'.fresh rfl rfl rfl rfl (fun pos hp => ⟨?_,rfl,rfl⟩) ?_ (fun _ hm => hm) ?_
  · change (q'.presenceDestinations.set q'.pos _).get pos = _
    rw [SortedDict.get_set,if_neg hp]
  · exact fun userId hu => (mem_presenceMap sts _).mpr (.inl hu)
  · obtain ⟨v,hv⟩ := mem_iff_lookup.mp ((mem_presenceMap (u := st.userId) sts q'.presenceMap).mpr
      (.inr ⟨st,hst,rfl⟩))
    simp [rowAt,nextPos,SortedDict.get_set,hv]

inductive Op (C : Type) where
  | edu (now : ℕ) (destination eduType : String) (content : C) (key : Option (List String))
  | presence (now : ℕ) (states : List UserPresenceState) (destinations : List String)
  | ack (instanceName : String) (token : ℕ)

def step : Op C → RemoteSendQueue C → RemoteSendQueue C
  | .edu now destination eduType content key => buildAndSendEdu now destination eduType content key
  | .presence now states destinations => sendPresenceToDestinations now states destinations
  | .ack instanceName token => federationAck instanceName token

def replay (ops : List (Op C)) (q : RemoteSendQueue C) : RemoteSendQueue C :=
  ops.foldl (fun q op => step op q) q

theorem replay_append (ops rs : List (Op C)) (q : RemoteSendQueue C) :
    replay (ops++rs) q = replay rs (replay ops q) :=
  foldl_append

/-- Every configured instance has been heard from, or the acknowledgement is
not for any row of the queue. -/
def Heard (q : RemoteSendQueue C) : Op C → Prop
  | .ack instanceName token =>
    (∀ name ∈ q.senderInstances, name = instanceName ∨ name ∈ q.senderPositions) ∨
      ∀ pos, rowAt q pos ≠ none → token ≤ pos
  | _ => True

def AllHeard : List (Op C) → RemoteSendQueue C → Prop
  | [],_ => True
  | op::ops,q => Heard q op ∧ AllHeard ops (step op q)

theorem allHeard_append (ops rs : List (Op C)) (q : RemoteSendQueue C) :
    AllHeard (ops++rs) q ↔ AllHeard ops q ∧ AllHeard rs (replay ops q) := by
  induction ops generalizing q with
  | nil => simp [AllHeard,replay]
  | cons op ops ih =>
    rw [cons_append,AllHeard,AllHeard,ih,and_assoc]
    rfl

theorem minPosition_le {d : Dict String ℕ} {name : String} (tk : ℕ)
    (h : d.lookup name = some pos) : minPosition d tk ≤ pos := by
  have hm := (mem_values d pos).mpr ⟨name,h⟩
  rw [minPosition]
  generalize values d = positions at hm
  induction positions with
  | nil => cases hm
  | cons first rs ih =>
    rcases mem_cons.mp hm with rfl | hr
    · exact min_le_left _ _
    · exact (min_le_right _ _).trans (ih hr)

structure Follows (instances : List String) (ops : List (Op C)) (q : RemoteSendQueue C) :
    Prop where
  instances : q.senderInstances = instances
  fresh : Fresh q
  acked : ∀ name position, q.senderPositions.lookup name = some position →
    .ack name position ∈ ops

variable {ins : List String} {ops : List (Op C)}

theorem federationAck_follows (h : Follows ins ops q) (inst : String) (tk : ℕ) :
    Follows ins (ops ++ [.ack inst tk]) (federationAck inst tk q) := by
  rw [federationAck]
  split
  · refine ⟨h.instances,h.fresh.clear tk,fun name pos hn => ?_⟩
    exact mem_append_left _ (h.acked name pos hn)
  · refine ⟨h.instances,Fresh.clear h.fresh _,fun name pos hn => ?_⟩
    change (q.senderPositions.insert inst tk).lookup name = some pos at hn
    rw [lookup_set] at hn
    split at hn
    · rename_i hs
      rw [hs,some.inj hn]
      simp
    · exact mem_append_left _ (h.acked name pos hn)

theorem step_follows
    (h : Follows ins ops q) (op : Op C) : Follows ins (ops ++ [op]) (step op q) := by
  have hq : ∀ {q' : RemoteSendQueue C}, Queues q q' → Follows ins (ops ++ [op]) q' := by
    intro q' hq'
    refine ⟨hq'.instances.trans h.instances,hq'.fresh,fun name pos hn => ?_⟩
    rw [hq'.positions] at hn
    exact mem_append_left _ (h.acked name pos hn)
  cases op with
  | edu now dest eduType ct key =>
    exact hq (buildAndSendEdu_adds h.fresh now dest eduType ct key).toQueues
  | presence now sts dests =>
    exact hq (sendPresenceToDestinations_adds h.fresh now sts dests).toQueues
  | ack inst tk => exact federationAck_follows h inst tk

theorem replay_follows (serverName : String) (ins : List String) (ops : List (Op C)) :
    Follows ins ops (replay ops (start serverName ins)) := by
  induction ops using reverseRecOn with
  | nil =>
    refine ⟨rfl,fun pos _ => ⟨rfl,rfl,rfl⟩,fun name po hn => ?_⟩
    simp [replay,start] at hn
  | append_singleton ops op ih =>
    rw [replay_append]
    exact step_follows ih op

theorem step_removes (h : Follows ins ops q) {op : Op C} (hh : Heard q op) (hr : rowAt q pos ≠ none)
    (hg : rowAt (step op q) pos = none) :
    ∀ name ∈ ins, ∃ tk, .ack name tk ∈ ops ++ [op] ∧ pos ≤ tk := by
  cases op with
  | edu now dest eduType ct key =>
    exact absurd hg ((buildAndSendEdu_adds h.fresh now dest eduType ct key).rows pos hr)
  | presence now sts dests =>
    exact absurd hg ((sendPresenceToDestinations_adds h.fresh now sts dests).rows pos hr)
  | ack inst tk =>
    intro name hn
    have hs : q.senderInstances ≠ [] := by
      rw [h.instances]
      exact ne_nil_of_mem hn
    have hf := federationAck_follows h inst tk
    change rowAt (federationAck inst tk q) pos = none at hg
    rw [federationAck,if_neg hs,rowAt_clearQueueBeforePos] at hg
    split at hg
    · rename_i hlt
      have hp : ∀ name po, (q.senderPositions.insert inst tk).lookup name = some po →
            pos < po := fun name po hl => hlt.trans_le (minPosition_le tk hl)
      have ht := hp inst tk (by simp)
      rcases hh with ha | hno
      · have hm : name ∈ q.senderPositions.insert inst tk :=
          mem_set.mpr (ha name (h.instances ▸ hn))
        obtain ⟨po,hl⟩ := mem_iff_lookup.mp hm
        rw [federationAck,if_neg hs] at hf
        exact ⟨po,hf.acked name po hl,(hp name po hl).le⟩
      · exact absurd (hno pos hr) (not_le.mpr ht)
    · exact absurd hg hr

/-- A row is taken away only after every configured instance has acknowledged
its position or a later one. -/
theorem removed_only_if_acked_of_allHeard (serverName : String) (instances : List String)
    (ops more : List (Op C)) (pos : ℕ)
    (hheard : AllHeard (ops ++ more) (start serverName instances))
    (hrow : rowAt (replay ops (start serverName instances)) pos ≠ none)
    (hgone : rowAt (replay (ops ++ more) (start serverName instances)) pos = none) :
    ∀ name ∈ instances, ∃ token, .ack name token ∈ ops ++ more ∧ pos ≤ token := by
  induction more using reverseRecOn with
  | nil =>
    rw [append_nil] at hgone
    exact absurd hgone hrow
  | append_singleton more op ih =>
    rw [← append_assoc] at hheard hgone ⊢
    obtain ⟨hbefore,hlast,-⟩ := (allHeard_append _ _ _).mp hheard
    by_cases hleft : rowAt (replay (ops ++ more) (start serverName instances)) pos = none
    · -- the row was gone before the last step
      intro name hname
      obtain ⟨token,hmem,hle⟩ := ih hbefore hleft name hname
      exact ⟨token,mem_append_left _ hmem,hle⟩
    · rw [replay_append] at hgone
      exact step_removes (replay_follows serverName instances (ops ++ more)) hlast hleft hgone

def typing : Op String := .edu 0 "y" "m.typing" "!r:x" none

theorem removed_only_if_acked_of_allHeard_twoSenders :
    rowAt (replay [.ack "s" 0,.ack "t" 0,typing] (start "x" ["s","t"])) 1 ≠ none ∧
    ∀ name ∈ ["s","t"], ∃ token, Op.ack name token ∈
      [.ack "s" 0,.ack "t" 0,typing] ++ [.ack "s" 2,.ack "t" 2] ∧ 1 ≤ token :=
  ⟨by decide +kernel,removed_only_if_acked_of_allHeard "x" ["s","t"] [.ack "s" 0,.ack "t" 0,typing]
      [.ack "s" 2,.ack "t" 2] 1
      ⟨.inr (fun pos _ => Nat.zero_le pos),.inl (by decide +kernel),trivial,
        .inl (by decide +kernel),.inl (by decide +kernel),trivial⟩
      (by decide +kernel) (by decide +kernel)⟩

/-- The first acknowledgement clears the queue although the other instance has
not been heard from. -/
theorem removed_unacked :
    rowAt (replay [typing] (start "x" ["s","t"])) 1 ≠ none ∧
    rowAt (replay ([typing] ++ [.ack "s" 2]) (start "x" ["s","t"])) 1 = none ∧
    ∀ token, Op.ack "t" token ∉ [typing] ++ [.ack "s" 2] := by
  refine ⟨by decide +kernel,by decide +kernel,?_⟩
  intro token h
  simp [typing] at h

end Synapse.FederationSendQueue
