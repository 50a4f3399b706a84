import Synapse.ReplicationStream

/-!
# Readers of a replicated stream

What is in flight from a writer carries its rows on from where the reader is, as
long as nothing was missed. Where commands were missed, the next position of the
writer brings the reader up to it. The data handler is then told positions that
have been reached only, if no row of another writer is among the rows of a batch
and no row comes from a writer that was missed.
-/

set_option autoImplicit false

namespace Synapse.ReplicationStream
open MultiWriterIdGenerator (Generator advance getCurrentTokenForWriter)
open List Option Function

variable {Row : Type}

section Between

variable {rows : List (ℤ × Row)} {f m u : ℤ}

theorem mem_between {p : ℤ × Row} : p ∈ between rows f u ↔ p ∈ rows ∧ f < p.1 ∧ p.1 ≤ u := by
  simp [between]

theorem between_le (hmu : m ≤ u) : between rows f m = (between rows f u).filter (·.1 ≤ m) := by
  rw [between,between,List.filter_filter]
  refine List.filter_congr (fun p _ => ?_)
  by_cases hm : p.1 ≤ m
  · have hu : p.1 ≤ u := hm.trans hmu
    simp [hm,hu]
  · simp [hm]

theorem between_gt (hfm : f ≤ m) : between rows m u = (between rows f u).filter (m < ·.1) := by
  rw [between,between,List.filter_filter]
  refine List.filter_congr (fun p _ => ?_)
  by_cases hm : m < p.1
  · have hf : f < p.1 := lt_of_le_of_lt hfm hm
    simp [hf]
  · simp [hm]

theorem between_append {nw : List (ℤ × Row)} (h : ∀ p ∈ nw, u < p.1) :
    between (rows ++ nw) f u = between rows f u := by
  rw [between,filter_append]
  have hn : nw.filter (fun p => f < p.1 ∧ p.1 ≤ u) = [] := by
    refine filter_eq_nil_iff.mpr (fun p hp => ?_)
    have hlt := h p hp
    simp only [decide_eq_true_eq]
    omega
  rw [hn,append_nil]
  rfl

theorem between_eq_nil : between rows f u = [] ↔ ∀ p ∈ rows, f < p.1 → ¬p.1 ≤ u := by
  simp only [eq_nil_iff_forall_not_mem,mem_between]
  exact ⟨fun h p hp hf hu => h p ⟨hp,hf,hu⟩,fun h p hp => h p hp.1 hp.2.1 hp.2.2⟩

theorem between_nil_trans (hfm : between rows f m = []) (hmu : between rows m u = []) :
    between rows f u = [] := by
  rw [between_eq_nil] at hfm hmu ⊢
  intro p hp hf hu
  by_cases hm : p.1 ≤ m
  · exact hfm p hp hf hm
  · exact hmu p hp (by omega) hu

theorem between_nil_mono {f' u' : ℤ} (hf : f ≤ f') (hu : u' ≤ u) (h : between rows f u = []) :
    between rows f' u' = [] := by
  rw [between_eq_nil] at h ⊢
  intro p hp hf' hu'
  exact h p hp (by omega) (by omega)

theorem between_skip (hfm : f ≤ m) (h : between rows f m = []) :
    between rows f u = between rows m u := by
  rw [between_gt hfm,filter_eq_self.mpr]
  intro p hp
  rw [between_eq_nil] at h
  rw [mem_between] at hp
  have hn := h p hp.1 hp.2.1
  simp only [decide_eq_true_eq]
  omega

end Between

def flat (batch : ℤ × List Row) : List (ℤ × Row) := batch.2.map (Prod.mk batch.1)

theorem flat_token {b : ℤ × List Row} {p : ℤ × Row} (hp : p ∈ flat b) : p.1 = b.1 := by
  obtain ⟨row,-,rfl⟩ := mem_map.mp hp
  rfl

theorem between_split {rws rs : List (ℤ × Row)} {b : ℤ × List Row} {f u : ℤ} (hne : b.2 ≠ [])
    (hr : ∀ p ∈ rs, b.1 < p.1) (h : between rws f u = flat b ++ rs) :
    f < b.1 ∧ b.1 ≤ u ∧ between rws f b.1 = flat b ∧ between rws b.1 u = rs := by
  obtain ⟨row,hrow⟩ := exists_mem_of_ne_nil _ hne
  have hm : (b.1,row) ∈ between rws f u := by
    rw [h]
    exact mem_append_left _ (mem_map_of_mem hrow)
  obtain ⟨-,hf,hu⟩ := mem_between.mp hm
  refine ⟨hf,hu,?_,?_⟩
  · rw [between_le hu,h,filter_append,filter_eq_self.mpr,filter_eq_nil_iff.mpr,append_nil]
    · intro p hp
      have hlt := hr p hp
      simp only [decide_eq_true_eq]
      omega
    · intro p hp
      simp [flat_token hp]
  · rw [between_gt hf.le,h,filter_append,filter_eq_nil_iff.mpr,filter_eq_self.mpr,nil_append]
    · intro p hp
      simpa using hr p hp
    · intro p hp
      simp [flat_token hp]

theorem batchFrom_flatMap (us : List (ℤ × Row)) (tk : ℤ) (b : List Row) :
    (batchFrom tk b us).flatMap flat = flat (tk,b) ++ us := by
  induction us generalizing tk b with
  | nil => simp [batchFrom]
  | cons update us ih =>
    obtain ⟨tk',row⟩ := update
    rw [batchFrom]
    split
    · rw [flatMap_cons,ih]
      rfl
    · next ht =>
      rw [ih,not_not.mp ht]
      simp [flat]

theorem batchUpdates_flatMap (us : List (ℤ × Row)) : (batchUpdates us).flatMap flat = us := by
  cases us with
  | nil => rfl
  | cons update us => exact batchFrom_flatMap us update.1 [update.2]

theorem batchFrom_ne_nil (us : List (ℤ × Row)) (tk : ℤ) {ba : List Row} (hbatch : ba ≠ []) :
    ∀ b ∈ batchFrom tk ba us, b.2 ≠ [] := by
  induction us generalizing tk ba with
  | nil => simpa [batchFrom] using hbatch
  | cons update us ih =>
    obtain ⟨tk',row⟩ := update
    rw [batchFrom]
    split
    · rw [forall_mem_cons]
      exact ⟨hbatch,ih tk' (by simp)⟩
    · exact ih tk (by simp)

theorem batchUpdates_ne_nil (us : List (ℤ × Row)) : ∀ b ∈ batchUpdates us, b.2 ≠ [] := by
  cases us with
  | nil => simp [batchUpdates]
  | cons update us => exact batchFrom_ne_nil us update.1 (by simp)

theorem batchFrom_increasing {us : List (ℤ × Row)} {tk : ℤ} (ba : List Row)
    (hs : us.Pairwise (fun p q => p.1 ≤ q.1)) (hle : ∀ p ∈ us, tk ≤ p.1) :
    (batchFrom tk ba us).Pairwise (fun a b => a.1 < b.1) ∧ ∀ b ∈ batchFrom tk ba us, tk ≤ b.1 := by
  induction us generalizing tk ba with
  | nil => simp [batchFrom]
  | cons update us ih =>
    obtain ⟨tk',row⟩ := update
    rw [pairwise_cons] at hs
    rw [batchFrom]
    by_cases ht : tk' ≠ tk
    · have hlt : tk < tk' := lt_of_le_of_ne (hle _ mem_cons_self) (Ne.symm ht)
      obtain ⟨hr,hf⟩ := ih [row] hs.2 (fun p hp => hs.1 p hp)
      rw [if_pos ht,pairwise_cons,forall_mem_cons]
      have hl : ∀ b ∈ batchFrom tk' [row] us, tk < b.1 := fun b hb => hlt.trans_le (hf b hb)
      exact ⟨⟨hl,hr⟩,le_rfl,fun b hb => (hl b hb).le⟩
    · rw [if_neg ht]
      exact ih _ hs.2 (fun p hp => hle p (mem_cons_of_mem _ hp))

theorem batchUpdates_increasing {us : List (ℤ × Row)} (hs : us.Pairwise (fun p q => p.1 ≤ q.1)) :
    (batchUpdates us).Pairwise (fun a b => a.1 < b.1) := by
  cases us with
  | nil => exact List.Pairwise.nil
  | cons update us =>
    rw [pairwise_cons] at hs
    exact (batchFrom_increasing [update.2] hs.2 hs.1).1

section Told

/-- The data handler got the row under its writer and its position. -/
def Delivered (handled : List (Handled Row)) (instanceName : String) (p : ℤ × Row) : Prop :=
  ∃ h ∈ handled, h.instanceName = instanceName ∧ h.token = p.1 ∧ p.2 ∈ h.rows

def Reached (handled : List (Handled Row)) (rows : List (ℤ × Row)) (instanceName : String)
    (token : ℤ) : Prop :=
  ∀ p ∈ rows, p.1 ≤ token → Delivered handled instanceName p

variable {handled : List (Handled Row)} {rows : List (ℤ × Row)} {w : String} {t : ℤ}

theorem Delivered.append {p : ℤ × Row} (h : Delivered handled w p) (more : List (Handled Row)) :
    Delivered (handled ++ more) w p := by
  obtain ⟨x,hx,hr⟩ := h
  exact ⟨x,mem_append_left _ hx,hr⟩

section

variable (h : Reached handled rows w t)
include h

theorem Reached.append (more : List (Handled Row)) : Reached (handled ++ more) rows w t :=
  fun p hp hle => (h p hp hle).append more

theorem Reached.mono {t' : ℤ} (ht : t' ≤ t) : Reached handled rows w t' :=
  fun p hp hle => h p hp (hle.trans ht)

theorem Reached.of_between {t' : ℤ}
    (hb : ∀ p ∈ between rows t t', Delivered handled w p) : Reached handled rows w t' := by
  intro p hp hle
  by_cases ht : p.1 ≤ t
  · exact h p hp ht
  · exact hb p (mem_between.mpr ⟨hp,by omega,hle⟩)

end

structure HandledSound (writers : String → Writer Row) (handled : List (Handled Row)) : Prop where
  written : ∀ h ∈ handled, ∀ row ∈ h.rows, (h.token,row) ∈ (writers h.instanceName).rows
  bounded : ∀ h ∈ handled, h.token ≤ (writers h.instanceName).currentToken
  told : ∀ before h after, handled = before ++ h::after →
    Reached (before ++ [h]) (writers h.instanceName).rows h.instanceName h.token

variable {ws : String → Writer Row}

theorem HandledSound.append (hs : HandledSound ws handled) {h : Handled Row}
    (hw : ∀ row ∈ h.rows, (h.token,row) ∈ (ws h.instanceName).rows)
    (hb : h.token ≤ (ws h.instanceName).currentToken)
    (hr : Reached (handled ++ [h]) (ws h.instanceName).rows h.instanceName h.token) :
    HandledSound ws (handled ++ [h]) := by
  refine ⟨?_,?_,?_⟩
  · exact forall_mem_append.mpr ⟨hs.written,forall_mem_singleton.mpr hw⟩
  · exact forall_mem_append.mpr ⟨hs.bounded,forall_mem_singleton.mpr hb⟩
  · intro bf x af heq
    rcases eq_nil_or_concat af with rfl | ⟨af,la,rfl⟩
    · obtain ⟨rfl,hx⟩ := append_inj' heq rfl
      rw [← (cons.inj hx).1]
      exact hr
    · rw [concat_eq_append,← cons_append,← append_assoc] at heq
      obtain ⟨rfl,-⟩ := append_inj' heq rfl
      exact hs.told bf x af rfl

theorem HandledSound.reached (hs : HandledSound ws handled) {h : Handled Row} (hm : h ∈ handled) :
    Reached handled (ws h.instanceName).rows h.instanceName h.token := by
  obtain ⟨bf,af,rfl⟩ := append_of_mem hm
  have ht := (hs.told bf h af rfl).append af
  rwa [append_assoc] at ht

theorem HandledSound.batches (bs : List (ℤ × List Row)) (hs : HandledSound ws handled)
    (hr : Reached handled (ws w).rows w t) {u : ℤ} (hf : bs.flatMap flat = between (ws w).rows t u)
    (hi : bs.Pairwise (fun a b => a.1 < b.1)) (hne : ∀ b ∈ bs, b.2 ≠ [])
    (hu : u ≤ (ws w).currentToken) :
    HandledSound ws (handled ++ bs.map (fun b => ⟨w,b.1,b.2⟩)) ∧
      Reached (handled ++ bs.map (fun b => ⟨w,b.1,b.2⟩)) (ws w).rows w u := by
  induction bs generalizing handled t with
  | nil =>
    rw [map_nil,append_nil]
    refine ⟨hs,hr.of_between (fun p hp => ?_)⟩
    rw [← hf] at hp
    cases hp
  | cons b bs ih =>
    rw [pairwise_cons] at hi
    rw [forall_mem_cons] at hne
    have hl : ∀ p ∈ bs.flatMap flat, b.1 < p.1 := by
      intro p hp
      obtain ⟨b',hb',hp⟩ := mem_flatMap.mp hp
      rw [flat_token hp]
      exact hi.1 b' hb'
    obtain ⟨-,hbu,ht,hre⟩ := between_split hne.1 hl hf.symm
    have hr' : Reached (handled ++ [⟨w,b.1,b.2⟩]) (ws w).rows w b.1 := by
      refine (hr.append _).of_between (fun p hp => ?_)
      rw [ht] at hp
      obtain ⟨row,hrow,rfl⟩ := mem_map.mp hp
      exact ⟨⟨w,b.1,b.2⟩,by simp,rfl,rfl,hrow⟩
    have hs' : HandledSound ws (handled ++ [⟨w,b.1,b.2⟩]) := by
      refine hs.append ?_ (hbu.trans hu) hr'
      intro row hrow
      have hrow' : (b.1,row) ∈ flat b := mem_map_of_mem hrow
      rw [← ht] at hrow'
      exact (mem_between.mp hrow').1
    have hih := ih hs' hr' hre.symm hi.2 hne.2
    rwa [append_assoc] at hih

end Told

section Fetch

variable {r : Reader Row} {w : String}

/-- The data handler is called, and all but the positions is as it was. -/
structure Kept (r r' : Reader Row) : Prop where
  pendingBatch : r'.pendingBatch = r.pendingBatch
  streamsByConnection : r'.streamsByConnection = r.streamsByConnection
  queue : r'.queue = r.queue
  conn : r'.conn = r.conn
  behind : r'.behind = r.behind
  pendingOf : r'.pendingOf = r.pendingOf
  instanceName : r'.generator.instanceName = r.generator.instanceName
  handled : ∃ more, r'.handled = r.handled ++ more

theorem Kept.refl (r : Reader Row) : Kept r r :=
  ⟨rfl,rfl,rfl,rfl,rfl,rfl,rfl,[],(append_nil _).symm⟩

theorem Kept.trans {r₁ r₂ r₃ : Reader Row} (h : Kept r₁ r₂) (h' : Kept r₂ r₃) : Kept r₁ r₃ := by
  refine ⟨h'.1.trans h.1,h'.2.trans h.2,h'.3.trans h.3,h'.4.trans h.4,h'.5.trans h.5,h'.6.trans h.6,
    h'.7.trans h.7,?_⟩
  obtain ⟨more,hm⟩ := h.handled
  obtain ⟨more',hm'⟩ := h'.handled
  exact ⟨more ++ more',by rw [hm',hm,append_assoc]⟩

theorem onRdata_kept (w : String) (r : Reader Row) (b : ℤ × List Row) : Kept r (onRdata w r b) :=
  ⟨rfl,rfl,rfl,rfl,rfl,rfl,rfl,_,rfl⟩

theorem foldl_onRdata (bs : List (ℤ × List Row)) (w : String) (r : Reader Row) :
    Kept r (bs.foldl (onRdata w) r) ∧ (bs.foldl (onRdata w) r).handled =
      r.handled ++ bs.map (fun b => ⟨w,b.1,b.2⟩) := by
  induction bs generalizing r with
  | nil => exact ⟨Kept.refl r,by simp⟩
  | cons b bs ih =>
    obtain ⟨hk,hh⟩ := ih (onRdata w r b)
    refine ⟨(onRdata_kept w r b).trans hk,?_⟩
    rw [foldl_cons,hh,onRdata,map_cons,append_assoc,singleton_append]

variable {writers : String → Writer Row} {u : UpdateFunction Row}

theorem getUpdatesSince_spec (u : UpdateFunction Row) (rws : List (ℤ × Row)) (f t : ℤ) :
    (getUpdatesSince u rws f t).1 = between rws f (getUpdatesSince u rws f t).2.1 ∧
      (getUpdatesSince u rws f t).2.1 ≤ t ∧
      ((getUpdatesSince u rws f t).2.2 = true → f < (getUpdatesSince u rws f t).2.1) ∧
      ((getUpdatesSince u rws f t).2.2 = false → (getUpdatesSince u rws f t).2.1 = t) := by
  unfold getUpdatesSince
  split
  · refine ⟨?_,le_rfl,by simp,by simp⟩
    exact (between_eq_nil.mpr (fun p _ hf => by simp only; omega)).symm
  · exact ⟨u.updates rws f t,u.upto_le rws f t,u.limited rws f t,u.complete rws f t⟩

theorem fetchMissing_spec (hso : (writers w).rows.Pairwise (fun p q => p.1 ≤ q.1)) (fuel : ℕ)
    {cur nk : ℤ} (hf : (nk - cur).toNat < fuel) (hn : nk ≤ (writers w).currentToken)
    (hs : HandledSound writers r.handled) (hr : Reached r.handled (writers w).rows w cur) :
    Kept r (fetchMissing u (writers w).rows w fuel cur nk r) ∧
      HandledSound writers (fetchMissing u (writers w).rows w fuel cur nk r).handled ∧
      Reached (fetchMissing u (writers w).rows w fuel cur nk r).handled (writers w).rows w nk := by
  induction fuel generalizing r cur with
  | zero => exact absurd hf (Nat.not_lt_zero _)
  | succ fuel ih =>
    obtain ⟨hu,hle,hl,hc⟩ := getUpdatesSince_spec u (writers w).rows cur nk
    rw [fetchMissing]
    generalize getUpdatesSince u (writers w).rows cur nk = result at *
    obtain ⟨us,up,limited⟩ := result
    dsimp only at *
    obtain ⟨hk,hh⟩ := foldl_onRdata (batchUpdates us) w r
    have hb := hs.batches (batchUpdates us) hr ((batchUpdates_flatMap us).trans hu)
      (batchUpdates_increasing (hu ▸ hso.filter _)) (batchUpdates_ne_nil us) (hle.trans hn)
    rw [← hh] at hb
    cases limited with
    | false =>
      rw [hc rfl] at hb
      exact ⟨hk,hb⟩
    | true =>
      have hlt := hl rfl
      obtain ⟨hk',hre⟩ := ih (by omega) hb.1 hb.2
      exact ⟨hk.trans hk',hre⟩

end Fetch

section Feed

/-- How far the reader follows a writer: the position up to which it has the rows, and
the rows of the batch that is being sent. -/
inductive Feed (Row : Type) where
  | behind
  | synced (upto : ℤ) (pending : List Row)

def Command.Bounded : Command Row → ℤ → Prop
  | .rdata (some token) _, bound => token ≤ bound
  | .position _ newToken, bound => newToken ≤ bound
  | _, _ => True

theorem Command.Bounded.mono {cmd : Command Row} {b b' : ℤ} (h : cmd.Bounded b) (hb : b ≤ b') :
    cmd.Bounded b' := by
  cases cmd with
  | lost => trivial
  | position pt nk => exact le_trans h hb
  | rdata tk row =>
    cases tk with
    | none => trivial
    | some tk => exact le_trans h hb

variable [DecidableEq Row] {rows : List (ℤ × Row)}

def accept (rows : List (ℤ × Row)) : Feed Row → Command Row → Option (Feed Row)
  | _, .lost => some .behind
  | .behind, .rdata _ _ => some .behind
  | .synced upto pending, .rdata none row => some (.synced upto (pending ++ [row]))
  | .synced upto pending, .rdata (some token) row =>
    if upto < token ∧ between rows upto token = flat (token,pending ++ [row]) then
      some (.synced token [])
    else none
  | .behind, .position prevToken newToken =>
    if between rows prevToken newToken = [] then some (.synced newToken []) else none
  | .synced upto pending, .position prevToken newToken =>
    if pending = [] ∧ upto ≤ newToken ∧ between rows prevToken newToken = [] ∧
        between rows upto newToken = [] then
      some (.synced newToken [])
    else none

variable {cmd : Command Row}

theorem accept_behind {fe fe' : Feed Row} (h : accept rows fe cmd = some fe') :
    ∃ fe'', accept rows .behind cmd = some fe'' ∧ (fe'' = fe' ∨ fe'' = .behind) := by
  cases cmd with
  | lost => exact ⟨.behind,by cases fe <;> rfl,.inr rfl⟩
  | rdata tk row => exact ⟨.behind,rfl,.inr rfl⟩
  | position pt nk =>
    cases fe with
    | behind => exact ⟨fe',h,.inl rfl⟩
    | synced up pd =>
      rw [accept] at h
      split at h
      · rename_i hc
        refine ⟨fe',?_,.inl rfl⟩
        rw [accept,if_pos hc.2.2.1]
        exact h
      · cases h

theorem accept_append {nw : List (ℤ × Row)} {bd : ℤ} (hn : ∀ p ∈ nw, bd < p.1) (hb : cmd.Bounded bd)
    (fe : Feed Row) : accept (rows ++ nw) fe cmd = accept rows fe cmd := by
  have hbe : ∀ f t, t ≤ bd → between (rows ++ nw) f t = between rows f t :=
    fun f t ht => between_append (fun p hp => lt_of_le_of_lt ht (hn p hp))
  cases cmd with
  | lost => cases fe <;> rfl
  | position pt nk =>
    cases fe <;> simp only [accept,hbe _ nk hb]
  | rdata tk row =>
    cases tk with
    | none => cases fe <;> rfl
    | some tk => cases fe <;> simp only [accept,hbe _ tk hb]

def Ends (w : Writer Row) : Feed Row → Prop
  | .behind => True
  | .synced upto pending => pending = [] ∧ upto ≤ w.lastToken ∧ between w.rows upto w.lastToken = []

/-- The commands follow on from where the reader is, and lead to where the writer is. -/
def Leads (w : Writer Row) (feed : Feed Row) (commands : List (Command Row)) : Prop :=
  ∃ final, commands.foldlM (accept w.rows) feed = some final ∧ Ends w final

variable {w : Writer Row} {fe : Feed Row} {cmds more : List (Command Row)}

theorem leads_append : Leads w fe (cmds ++ more) ↔
    ∃ fe', cmds.foldlM (accept w.rows) fe = some fe' ∧ Leads w fe' more := by
  simp only [Leads,foldlM_append]
  constructor
  · rintro ⟨final,h,he⟩
    obtain ⟨fe',hf,hr⟩ := bind_eq_some_iff.mp h
    exact ⟨fe',hf,final,hr,he⟩
  · rintro ⟨fe',hf,final,hr,he⟩
    exact ⟨final,bind_eq_some_iff.mpr ⟨fe',hf,hr⟩,he⟩

theorem leads_cons :
    Leads w fe (cmd::cmds) ↔ ∃ fe', accept w.rows fe cmd = some fe' ∧ Leads w fe' cmds := by
  have h : cmd::cmds = [cmd] ++ cmds := rfl
  rw [h,leads_append]
  simp

theorem Leads.behind (h : Leads w fe cmds) : Leads w .behind cmds := by
  induction cmds generalizing fe with
  | nil => exact ⟨.behind,rfl,trivial⟩
  | cons cmd cmds ih =>
    obtain ⟨fe',ha,hr⟩ := leads_cons.mp h
    obtain ⟨fe'',hb,rfl | rfl⟩ := accept_behind ha
    · exact leads_cons.mpr ⟨_,hb,hr⟩
    · exact leads_cons.mpr ⟨_,hb,ih hr⟩

end Feed

section Send

variable {w : Writer Row}

structure WriterSound (w : Writer Row) : Prop where
  sorted : w.rows.Pairwise (fun p q => p.1 ≤ q.1)
  rows_le : ∀ p ∈ w.rows, p.1 ≤ w.currentToken
  last_le : w.lastToken ≤ w.currentToken

theorem Ends.append {w' : Writer Row} {fe : Feed Row} {nw : List (ℤ × Row)} (h : Ends w fe)
    (hr : w'.rows = w.rows ++ nw) (hl : w'.lastToken = w.lastToken)
    (hn : ∀ p ∈ nw, w.lastToken < p.1) : Ends w' fe := by
  cases fe with
  | behind => trivial
  | synced up pd =>
    obtain ⟨hp,hle,hb⟩ := h
    refine ⟨hp,hl ▸ hle,?_⟩
    rw [hr,hl,between_append hn]
    exact hb

theorem ends_synced (w : Writer Row) : Ends w (.synced w.lastToken []) :=
  ⟨rfl,le_rfl,between_eq_nil.mpr (fun p _ hp => by omega)⟩

theorem minimalLocalCurrentToken_le (h : WriterSound w)
    (hle : minimalLocalCurrentToken w ≤ w.lastToken) (up : ℤ) :
    between w.rows w.lastToken up = [] := by
  refine between_eq_nil.mpr (fun p hp hlt => ?_)
  unfold minimalLocalCurrentToken at hle
  obtain ⟨rows,la,hr⟩ : ∃ rows la, w.rows = rows ++ [la] :=
    (eq_nil_or_concat w.rows).resolve_left (ne_nil_of_mem hp) |>.imp
      (fun rows => Exists.imp (fun la h => h.trans concat_eq_append))
  have hs := h.sorted
  rw [hr] at hp hle hs
  rw [getLast?_concat] at hle
  have hm : p.1 ≤ la.1 := by
    rcases mem_append.mp hp with hp | hp
    · exact (pairwise_append.mp hs).2.2 p hp la (mem_singleton_self _)
    · rw [mem_singleton.mp hp]
  dsimp only at hle
  omega

theorem getUpdates_spec (u : UpdateFunction Row) (h : WriterSound w) :
    ∃ us up limited, getUpdates u w = ((us,up,limited),{ w with lastToken := up }) ∧
      us = between w.rows w.lastToken up ∧ w.lastToken ≤ up ∧ up ≤ w.currentToken := by
  unfold getUpdates
  split
  · next hm =>
    exact ⟨[],w.currentToken,false,rfl,(minimalLocalCurrentToken_le h hm _).symm,h.last_le,le_rfl⟩
  · obtain ⟨hu,hle,hl,hc⟩ := getUpdatesSince_spec u w.rows w.lastToken w.currentToken
    generalize getUpdatesSince u w.rows w.lastToken w.currentToken = result at *
    obtain ⟨us,up,limited⟩ := result
    refine ⟨us,up,limited,rfl,hu,?_,hle⟩
    cases limited with
    | false => exact h.last_le.trans_eq (hc rfl).symm
    | true => exact (hl rfl).le

theorem bounded_batchTokens {us : List (ℤ × Row)} {bd : ℤ} (h : ∀ p ∈ us, p.1 ≤ bd) :
    ∀ cmd ∈ (batchTokens us).map toRdata, cmd.Bounded bd := by
  induction us with
  | nil => simp [batchTokens]
  | cons p us ih =>
    rw [forall_mem_cons] at h
    cases us with
    | nil => simpa [batchTokens,toRdata,Command.Bounded] using h.1
    | cons q us =>
      rw [batchTokens,map_cons,forall_mem_cons]
      refine ⟨?_,ih h.2⟩
      by_cases heq : p.1 = q.1
      · simp [toRdata,heq,Command.Bounded]
      · simpa [toRdata,heq,Command.Bounded] using h.1

variable [DecidableEq Row] {rows : List (ℤ × Row)}

theorem foldlM_batchTokens (us : List (ℤ × Row)) (p : ℤ × Row) (pd : List Row) {f u : ℤ}
    (hs : (p::us).Pairwise (fun p q => p.1 ≤ q.1)) (h : between rows f u = flat (p.1,pd) ++ p::us) :
    ∃ la, (p::us).getLast? = some la ∧
      ((batchTokens (p::us)).map toRdata).foldlM (accept rows) (.synced f pd) =
        some (.synced la.1 []) ∧ la.1 ≤ u ∧ between rows la.1 u = [] := by
  have hfl : ∀ (p : ℤ × Row) (pd : List Row),
      flat (p.1,pd ++ [p.2]) = flat (p.1,pd) ++ [p] := by simp [flat]
  induction us generalizing p f pd with
  | nil =>
    have h' : between rows f u = flat (p.1,pd ++ [p.2]) ++ [] := by
      rw [h,hfl,append_nil]
    obtain ⟨hf,hu,ht,hr⟩ := between_split (by simp) (by simp) h'
    refine ⟨p,rfl,?_,hu,hr⟩
    have ha : accept rows (.synced f pd) (toRdata (some p.1,p.2)) =
        some (.synced p.1 []) := if_pos ⟨hf,ht⟩
    simp [batchTokens,ha]
  | cons q us ih =>
    rw [pairwise_cons] at hs
    have hpq := hs.1 q mem_cons_self
    rw [batchTokens,map_cons,foldlM_cons]
    by_cases heq : p.1 = q.1
    · -- the batch goes on with the next row
      rw [if_pos heq]
      refine ih q _ hs.2 ?_
      rw [h,← heq,hfl,append_assoc]
      rfl
    · rw [if_neg heq]
      have hl : ∀ x ∈ q::us, p.1 < x.1 := by
        intro x hx
        rcases mem_cons.mp hx with rfl | hx
        · omega
        · have hqx := (pairwise_cons.mp hs.2).1 x hx
          omega
      have h' : between rows f u = flat (p.1,pd ++ [p.2]) ++ q::us := by
        rw [h,hfl,append_assoc]
        rfl
      obtain ⟨hf,hu,ht,hr⟩ := between_split (by simp) hl h'
      obtain ⟨la,hla,hfo,hr⟩ := ih q [] hs.2 (by simpa [flat] using hr)
      refine ⟨la,hla,?_,hr⟩
      have ha : accept rows (.synced f pd) (toRdata (some p.1,p.2)) =
          some (.synced p.1 []) := if_pos ⟨hf,ht⟩
      rw [ha]
      exact hfo

/-- A writer goes on: rows are added, it advances and it sends commands that follow on
from those before. -/
structure Extends (w w' : Writer Row) (newer : List (ℤ × Row)) (commands : List (Command Row)) :
    Prop where
  sound : WriterSound w'
  rows : w'.rows = w.rows ++ newer
  newer : ∀ p ∈ newer, w.currentToken < p.1
  advances : w.currentToken ≤ w'.currentToken
  outbox : w'.outbox = w.outbox ++ commands
  bounded : ∀ command ∈ commands, command.Bounded w'.currentToken
  ends : ∀ feed, Ends w feed → ∃ feed', commands.foldlM (accept w'.rows) feed = some feed' ∧
    Ends w' feed'

theorem Leads.extends {w' : Writer Row} {nw : List (ℤ × Row)} {fe : Feed Row}
    {cmds more : List (Command Row)} (hext : Extends w w' nw more)
    (hb : ∀ cmd ∈ cmds, cmd.Bounded w.currentToken) (h : Leads w fe cmds) :
    Leads w' fe (cmds ++ more) := by
  induction cmds generalizing fe with
  | nil =>
    obtain ⟨_,hn,he⟩ := h
    cases hn
    exact hext.ends fe he
  | cons cmd cmds ih =>
    rw [forall_mem_cons] at hb
    obtain ⟨fe',ha,hr⟩ := leads_cons.mp h
    refine leads_cons.mpr ⟨fe',?_,ih hb.2 hr⟩
    rw [hext.rows,accept_append hext.newer hb.1]
    exact ha

theorem extends_refl (h : WriterSound w) : Extends w w [] [] where
  sound := h
  rows := (append_nil _).symm
  newer := by simp
  advances := le_rfl
  outbox := (append_nil _).symm
  bounded := by simp
  ends feed hf := ⟨feed,rfl,hf⟩

section

variable (h : WriterSound w)
include h

theorem extends_write (rows : List (ℤ × Row)) (up : ℤ) :
    ∃ nw, Extends w (write rows up w) nw [] := by
  unfold write
  by_cases hc : rows.Pairwise (fun p q => p.1 ≤ q.1) ∧
      (∀ p ∈ rows, w.currentToken < p.1 ∧ p.1 ≤ up) ∧ w.currentToken ≤ up
  · rw [if_pos hc]
    obtain ⟨hs,hb,hle⟩ := hc
    have hl := h.last_le
    refine ⟨rows,{
      sound := ⟨?_,?_,?_⟩
      rows := rfl
      newer := fun p hp => (hb p hp).1
      advances := hle
      outbox := (append_nil _).symm
      bounded := by simp
      ends := ?_ }⟩
    · refine pairwise_append.mpr ⟨h.sorted,hs,fun p hp q hq => ?_⟩
      have hp' := h.rows_le p hp
      have hq' := (hb q hq).1
      omega
    · intro p hp
      rcases mem_append.mp hp with hp | hp
      · exact (h.rows_le p hp).trans hle
      · exact (hb p hp).2
    · exact hl.trans hle
    · intro fe hf
      refine ⟨fe,rfl,hf.append rfl rfl (fun p hp => ?_)⟩
      have hp' := (hb p hp).1
      omega
  · rw [if_neg hc]
    exact ⟨[],extends_refl h⟩

theorem extends_send {lastToken : ℤ} (hl : lastToken ≤ w.currentToken)
    {cmds : List (Command Row)} (hb : ∀ cmd ∈ cmds, cmd.Bounded w.currentToken)
    (he : ∀ f ≤ w.lastToken, between w.rows f w.lastToken = [] →
      Leads { w with lastToken := lastToken } (.synced f []) cmds) :
    Extends w (send cmds { w with lastToken := lastToken }) [] cmds where
  sound := ⟨h.sorted,h.rows_le,hl⟩
  rows := (append_nil _).symm
  newer := by simp
  advances := le_rfl
  outbox := rfl
  bounded := hb
  ends fe hf := by
    have hle : Leads { w with lastToken := lastToken } fe cmds := by
      cases fe with
      | behind => exact (he _ le_rfl (ends_synced w).2.2).behind
      | synced f pd =>
        obtain ⟨rfl,hf,hn⟩ := hf
        exact he f hf hn
    obtain ⟨fe',hfo,hf'⟩ := hle
    refine ⟨fe',hfo,?_⟩
    cases fe' with
    | behind => trivial
    | synced up pd => exact hf'

theorem extends_announcePosition :
    Extends w (announcePosition w) [] [.position w.lastToken w.lastToken] := by
  have hn := (ends_synced w).2.2
  refine extends_send h h.last_le (by simpa [Command.Bounded] using h.last_le) ?_
  intro f hf hb
  refine ⟨.synced w.lastToken [],?_,ends_synced w⟩
  simp [accept,hf,hb,hn]

theorem extends_discard : Extends w (discardUpdatesAndAdvance w) [] [.lost] := by
  refine extends_send h le_rfl (by simp [Command.Bounded]) ?_
  intro f _ _
  exact ⟨.behind,rfl,trivial⟩

end

/-- Rows are sent, and a position if the last of them is not up to where the updates
go. -/
theorem extends_rows (h : WriterSound w) {up : ℤ} (hup : up ≤ w.currentToken) {p la : ℤ × Row}
    {us : List (ℤ × Row)} (hu : p::us = between w.rows w.lastToken up)
    (hl : (p::us).getLast? = some la) :
    Extends w (send ((batchTokens (p::us)).map toRdata ++
        if la.1 < up then [.position la.1 up] else []) { w with lastToken := up }) []
      ((batchTokens (p::us)).map toRdata ++
        if la.1 < up then [.position la.1 up] else []) := by
  have hs : (p::us).Pairwise (fun p q => p.1 ≤ q.1) := hu ▸ h.sorted.filter _
  refine extends_send h hup ?_ (fun f hf hb => ?_)
  · rw [forall_mem_append]
    refine ⟨bounded_batchTokens (fun q hq => ?_),?_⟩
    · rw [hu] at hq
      exact (mem_between.mp hq).2.2.trans hup
    · split
      · simpa [Command.Bounded] using hup
      · simp
  · rw [← between_skip hf hb] at hu
    obtain ⟨la',hl',hfo,hlu,hn⟩ := foldlM_batchTokens us p [] hs (by simpa [flat] using hu.symm)
    rw [hl] at hl'
    cases hl'
    refine leads_append.mpr ⟨_,hfo,?_⟩
    split
    · rename_i hlt
      refine ⟨.synced up [],?_,ends_synced _⟩
      simp [accept,hn,hlt.le]
    · exact ⟨_,rfl,rfl,hlu,hn⟩

theorem extends_sendUpdates (u : UpdateFunction Row) (isCaches : Bool) (h : WriterSound w) :
    ∃ cmds, Extends w (sendUpdates u isCaches w) [] cmds := by
  unfold sendUpdates
  split
  · exact ⟨[],extends_refl h⟩
  · obtain ⟨us,up,limited,hg,hu,hle,hup⟩ := getUpdates_spec u h
    rw [hg]
    dsimp only
    split
    · rename_i hn
      rw [getLast?_eq_none_iff.mp hn] at hu
      split
      · have hse : send [] { w with lastToken := up } = { w with lastToken := up } := by
          simp [send]
        rw [← hse]
        refine ⟨[],extends_send h hup (by simp) (fun f hf hb => ?_)⟩
        exact ⟨_,rfl,rfl,hf.trans hle,between_nil_trans hb hu.symm⟩
      · refine ⟨[.position w.lastToken up],extends_send h hup (by simpa [Command.Bounded]) ?_⟩
        intro f hf hb
        refine ⟨.synced up [],?_,ends_synced _⟩
        simp [accept,hf.trans hle,← hu,between_nil_trans hb hu.symm]
    · rename_i la hl
      cases us with
      | nil => cases hl
      | cons p us => exact ⟨_,extends_rows h hup hu hl⟩

end Send

section Sound

def inFlight (s : System Row) (w : String) : List (Command Row) :=
  (s.reader.queue.filter (·.instanceName = w)).map Entry.command ++ (s.writers w).outbox

def pendingRows (r : Reader Row) (w : String) : List Row :=
  if r.pendingOf = some w then r.pendingBatch else []

def FeedOf (s : System Row) (w : String) (feed : Feed Row) : Prop :=
  if w ∈ s.reader.behind then feed = .behind
  else ∃ upto, feed = .synced upto (pendingRows s.reader w) ∧
    upto ≤ (s.writers w).currentToken ∧ Reached s.reader.handled (s.writers w).rows w upto

structure SameRows (w w' : Writer Row) : Prop where
  rows : w'.rows = w.rows
  currentToken : w'.currentToken = w.currentToken
  lastToken : w'.lastToken = w.lastToken

variable {s : System Row} {r : Reader Row} {w : String} {w' : Writer Row} {command : Command Row}
  {ob : List (Command Row)}

theorem Extends.reached {w : Writer Row} {nw : List (ℤ × Row)} {hd : List (Handled Row)}
    {inst : String} {t : ℤ} (hr : w'.rows = w.rows ++ nw) (hn : ∀ p ∈ nw, w.currentToken < p.1)
    (ht : t ≤ w.currentToken) (h : Reached hd w.rows inst t) : Reached hd w'.rows inst t := by
  intro p hp hle
  rw [hr] at hp
  rcases mem_append.mp hp with hp | hp
  · exact h p hp hle
  · have hlt := hn p hp
    omega

theorem SameRows.sound {w : Writer Row} (h : SameRows w w') (hw : WriterSound w) :
    WriterSound w' := by
  refine ⟨h.rows ▸ hw.sorted,?_,?_⟩
  · rw [h.rows,h.currentToken]
    exact hw.rows_le
  · rw [h.lastToken,h.currentToken]
    exact hw.last_le

theorem SameRows.ends {w : Writer Row} (h : SameRows w w') {fe : Feed Row} (he : Ends w fe) :
    Ends w' fe := by
  cases fe with
  | behind => trivial
  | synced up pd =>
    rw [Ends,h.rows,h.lastToken]
    exact he

theorem SameRows.handled {ws ws' : String → Writer Row} (h : ∀ w, SameRows (ws w) (ws' w))
    {hd : List (Handled Row)} (hs : HandledSound ws hd) : HandledSound ws' hd := by
  refine ⟨?_,?_,?_⟩
  · simp only [(h _).rows]
    exact hs.written
  · simp only [(h _).currentToken]
    exact hs.bounded
  · simp only [(h _).rows]
    exact hs.told

theorem sameRows_update (s : System Row) (w : String) (ob : List (Command Row)) (w' : String) :
    SameRows (s.writers w') ((update w (fun wr => { wr with outbox := ob }) s).writers w') := by
  by_cases hw : w' = w
  · subst hw
    simp only [update,update_self]
    exact ⟨rfl,rfl,rfl⟩
  · simp only [update,update_of_ne hw]
    exact ⟨rfl,rfl,rfl⟩

theorem outbox_update (s : System Row) (w : String) (ob : List (Command Row)) (w' : String) :
    ((update w (fun wr => { wr with outbox := ob }) s).writers w').outbox =
      if w' = w then ob else (s.writers w').outbox := by
  by_cases hw : w' = w
  · subst hw
    simp [update]
  · simp [update,hw]

theorem inFlight_arrive (ho : (s.writers w).outbox = command::ob) (w' : String) :
    inFlight (arrive w command ob s) w' = inFlight s w' := by
  have hout : ((arrive w command ob s).writers w').outbox =
      if w' = w then ob else (s.writers w').outbox := outbox_update s w ob w'
  rw [inFlight,inFlight,hout,arrive]
  by_cases hw : w' = w
  · subst hw
    simp [ho]
  · simp [hw,Ne.symm hw]

theorem sameRows_lose (count : ℕ) (w : Writer Row) : SameRows w (lose count w) := by
  unfold lose
  split <;> exact ⟨rfl,rfl,rfl⟩

theorem FeedOf.more {fe : Feed Row} (h : FeedOf s w fe) {more : List (Handled Row)}
    (hm : r.handled = s.reader.handled ++ more) (hbh : w ∈ r.behind ↔ w ∈ s.reader.behind)
    (hr : pendingRows r w = pendingRows s.reader w) : FeedOf { s with reader := r } w fe := by
  unfold FeedOf at h ⊢
  split at h
  · next hw =>
    rw [if_pos (hbh.mpr hw)]
    exact h
  · next hw =>
    rw [if_neg (fun hmem => hw (hbh.mp hmem))]
    obtain ⟨up,hf,hle,hre⟩ := h
    exact ⟨up,by rw [hr]; exact hf,hle,hm ▸ hre.append more⟩

theorem feedOf_synced {up : ℤ} {pd : List Row} (hw : w ∉ r.behind) (hp : pendingRows r w = pd)
    (hle : up ≤ (s.writers w).currentToken) (hr : Reached r.handled (s.writers w).rows w up) :
    FeedOf { s with reader := r } w (.synced up pd) := by
  unfold FeedOf
  rw [if_neg hw]
  exact ⟨up,by rw [hp],hle,hr⟩

variable [DecidableEq Row]

structure Sound (s : System Row) : Prop where
  writer : ∀ w, WriterSound (s.writers w)
  others : ∀ e ∈ s.reader.queue, e.instanceName ≠ s.reader.generator.instanceName
  bounded : ∀ w, ∀ command ∈ inFlight s w, command.Bounded (s.writers w).currentToken
  handled : HandledSound s.writers s.reader.handled
  discarded : ∀ e ∈ s.reader.queue, e.discarded = true → ∃ prevToken newToken,
    e.command = .position prevToken newToken ∧
      Reached s.reader.handled (s.writers e.instanceName).rows e.instanceName newToken
  pending : s.reader.pendingOf = none → s.reader.pendingBatch = []
  follows : ∀ w, w ≠ s.reader.generator.instanceName → ∃ feed final, FeedOf s w feed ∧
    (inFlight s w).foldlM (accept (s.writers w).rows) feed = some final ∧ Ends (s.writers w) final

theorem Sound.leads (h : Sound s) (w : String) (hw : w ≠ s.reader.generator.instanceName) :
    ∃ feed, FeedOf s w feed ∧ Leads (s.writers w) feed (inFlight s w) := by
  obtain ⟨feed,final,hf,hfo,he⟩ := h.follows w hw
  exact ⟨feed,hf,final,hfo,he⟩

theorem start_sound (reader : String) (ws : List String) :
    Sound (start reader ws : System Row) := by
  constructor
  · intro w
    exact ⟨List.Pairwise.nil,by simp [start],le_rfl⟩
  · simp [start]
  · simp [start,inFlight]
  · exact ⟨by simp [start],by simp [start],by simp [start]⟩
  · simp [start]
  · exact fun _ => rfl
  · intro w _
    refine ⟨.synced 1 [],.synced 1 [],?_,rfl,rfl,le_rfl,rfl⟩
    simp [FeedOf,start,pendingRows,Reached]

theorem update_sound (h : Sound s) {f : Writer Row → Writer Row} {nw : List (ℤ × Row)}
    {cmds : List (Command Row)} (hext : Extends (s.writers w) (f (s.writers w)) nw cmds) :
    Sound (update w f s) := by
  have hx : ∀ w', ∃ nw cmds, Extends (s.writers w') ((update w f s).writers w') nw cmds := by
    intro w'
    by_cases hw : w' = w
    · subst hw
      exact ⟨nw,cmds,by simpa [update] using hext⟩
    · exact ⟨[],[],by simpa [update,hw] using extends_refl (h.writer w')⟩
  have hre : ∀ {w' handled t}, t ≤ (s.writers w').currentToken →
      Reached handled (s.writers w').rows w' t →
      Reached handled ((update w f s).writers w').rows w' t := by
    intro w' handled t ht hre
    obtain ⟨nw,cmds,hext⟩ := hx w'
    exact Extends.reached hext.rows hext.newer ht hre
  have ha : ∀ w', (s.writers w').currentToken ≤ ((update w f s).writers w').currentToken := by
    intro w'
    obtain ⟨nw,cmds,hext⟩ := hx w'
    exact hext.advances
  have hif : ∀ w', ∃ nw cmds, Extends (s.writers w') ((update w f s).writers w') nw cmds ∧
      inFlight (update w f s) w' = inFlight s w' ++ cmds := by
    intro w'
    obtain ⟨nw,cmds,hext⟩ := hx w'
    refine ⟨nw,cmds,hext,?_⟩
    rw [inFlight,hext.outbox,← append_assoc]
    rfl
  constructor
  · intro w'
    obtain ⟨nw,cmds,hext⟩ := hx w'
    exact hext.sound
  · exact h.others
  · intro w' command hcm
    obtain ⟨nw,cmds,hext,hi⟩ := hif w'
    rw [hi] at hcm
    rcases mem_append.mp hcm with hcm | hcm
    · exact (h.bounded w' command hcm).mono (ha w')
    · exact hext.bounded command hcm
  · refine ⟨?_,?_,?_⟩
    · intro x hx' row hrow
      obtain ⟨nw,cmds,hext⟩ := hx x.instanceName
      rw [hext.rows]
      exact mem_append_left _ (h.handled.written x hx' row hrow)
    · intro x hx
      exact (h.handled.bounded x hx).trans (ha _)
    · intro bf x af heq
      refine hre (h.handled.bounded x ?_) (h.handled.told bf x af heq)
      exact heq ▸ mem_append_right _ mem_cons_self
  · intro e he hd
    obtain ⟨pt,nk,hcm,hn⟩ := h.discarded e he hd
    refine ⟨pt,nk,hcm,hre ?_ hn⟩
    have hm : e.command ∈ inFlight s e.instanceName :=
      mem_append_left _ (mem_map_of_mem (mem_filter.mpr ⟨he,by simp⟩))
    have hb := h.bounded e.instanceName e.command hm
    rw [hcm] at hb
    exact hb
  · exact h.pending
  · intro w' hw'
    obtain ⟨fe,hf,hl⟩ := h.leads w' hw'
    obtain ⟨nw,cmds,hext,hi⟩ := hif w'
    have hf' : FeedOf (update w f s) w' fe := by
      unfold FeedOf at hf ⊢
      change if w' ∈ s.reader.behind then _ else _
      split at hf
      · rename_i hbh
        rw [if_pos hbh]
        exact hf
      · rename_i hbh
        rw [if_neg hbh]
        obtain ⟨up,hu,hle,hr⟩ := hf
        exact ⟨up,hu,hle.trans (ha w'),hre hle hr⟩
    obtain ⟨final,hfo,he⟩ := hl.extends hext (h.bounded w')
    exact ⟨fe,final,hf',hi ▸ hfo,he⟩

theorem SameRows.leads {w : Writer Row} (h : SameRows w w') {fe : Feed Row}
    {cmds : List (Command Row)} (hl : Leads w fe cmds) : Leads w' fe cmds := by
  obtain ⟨final,hf,he⟩ := hl
  exact ⟨final,h.rows ▸ hf,h.ends he⟩

theorem sameRows_sound (h : Sound s) {s' : System Row}
    (hs : ∀ w, SameRows (s.writers w) (s'.writers w))
    (hr : s'.reader.generator = s.reader.generator ∧ s'.reader.behind = s.reader.behind ∧
      s'.reader.pendingOf = s.reader.pendingOf ∧ s'.reader.pendingBatch = s.reader.pendingBatch ∧
      s'.reader.handled = s.reader.handled) (hq : ∀ e ∈ s'.reader.queue, e ∈ s.reader.queue ∨
      e.instanceName ≠ s.reader.generator.instanceName ∧ (e.discarded = true → ∃ pt nk,
        e.command = .position pt nk ∧
          Reached s.reader.handled (s.writers e.instanceName).rows e.instanceName nk))
    (hb : ∀ w, ∀ c ∈ inFlight s' w, c ∈ inFlight s w ∨ c = .lost)
    (hl : ∀ w fe, w ≠ s.reader.generator.instanceName → Leads (s.writers w) fe (inFlight s w) →
      Leads (s.writers w) fe (inFlight s' w)) : Sound s' := by
  obtain ⟨hg,hbh,hpo,hpb,hh⟩ := hr
  constructor
  · exact fun w => (hs w).sound (h.writer w)
  · intro e he
    rw [hg]
    rcases hq e he with he | he
    · exact h.others e he
    · exact he.1
  · intro w c hc
    rw [(hs w).currentToken]
    rcases hb w c hc with hc | rfl
    · exact h.bounded w c hc
    · trivial
  · rw [hh]
    exact SameRows.handled hs h.handled
  · intro e he hd
    rw [hh,(hs e.instanceName).rows]
    rcases hq e he with he | he
    · exact h.discarded e he hd
    · exact he.2 hd
  · rw [hpo,hpb]
    exact h.pending
  · intro w hw
    rw [hg] at hw
    obtain ⟨fe,hf,hle⟩ := h.leads w hw
    obtain ⟨final,hfo,he⟩ := (hs w).leads (hl w fe hw hle)
    refine ⟨fe,final,?_,hfo,he⟩
    rw [FeedOf,pendingRows,hbh,hpo,hpb,hh,(hs w).rows,(hs w).currentToken]
    exact hf

theorem ignore_sound (h : Sound s) (hw : w = s.reader.generator.instanceName)
    (ho : (s.writers w).outbox = command::ob) :
    Sound (update w (fun wr => { wr with outbox := ob }) s) := by
  have hif : ∀ w', inFlight (update w (fun wr => { wr with outbox := ob }) s) w' =
      (s.reader.queue.filter (·.instanceName = w')).map Entry.command ++
        if w' = w then ob else (s.writers w').outbox := by
    intro w'
    rw [inFlight,outbox_update]
    rfl
  refine sameRows_sound h (sameRows_update s w ob) ⟨rfl,rfl,rfl,rfl,rfl⟩ (fun e he => .inl he) ?_ ?_
  · intro w' c hc
    rw [hif] at hc
    by_cases heq : w' = w
    · subst heq
      rw [if_pos rfl] at hc
      rw [inFlight,ho]
      exact .inl (((sublist_cons_self command ob).append_left _).subset hc)
    · rw [if_neg heq] at hc
      exact .inl hc
  · intro w' fe hne hl
    rw [hif,if_neg (fun heq => hne (heq.trans hw))]
    exact hl

theorem arrive_sound (h : Sound s)
    (hco : Reached s.reader.handled (s.writers w).rows w (currentToken s.reader w))
    (hown : w ≠ s.reader.generator.instanceName) (ho : (s.writers w).outbox = command::ob) :
    Sound (arrive w command ob s) := by
  refine sameRows_sound h (sameRows_update s w ob) ⟨rfl,rfl,rfl,rfl,rfl⟩ ?_ ?_ ?_
  · intro e he
    refine (mem_append.mp he).imp id (fun he => ?_)
    rw [mem_singleton.mp he]
    refine ⟨hown,fun hd => ?_⟩
    cases command with
    | position pt nk =>
      refine ⟨pt,nk,rfl,hco.mono ?_⟩
      simp only [discardsOnArrival,canDiscardPosition,decide_eq_true_eq] at hd
      exact hd.1
    | rdata _ _ | lost => cases hd
  · intro w' c hc
    rw [inFlight_arrive ho] at hc
    exact .inl hc
  · intro w' fe _ hl
    rw [inFlight_arrive ho]
    exact hl

theorem receive_sound (h : Sound s)
    (hc : Reached s.reader.handled (s.writers w).rows w (currentToken s.reader w)) :
    Sound (receive w s) := by
  unfold receive
  cases ho : (s.writers w).outbox with
  | nil => exact h
  | cons command ob =>
    dsimp only
    split
    · next hown => exact ignore_sound h hown ho
    · next hown => exact arrive_sound h hc hown ho

theorem reconnect_sound (h : Sound s) (lost : String → ℕ) : Sound (reconnect lost s) := by
  refine sameRows_sound h (fun w => sameRows_lose _ _) ⟨rfl,rfl,rfl,rfl,rfl⟩ (fun e he => .inl he)
    ?_ ?_
  · intro w c hc
    rcases mem_append.mp hc with hc | hc
    · exact .inl (mem_append_left _ hc)
    · simp only [reconnect,lose] at hc
      split at hc
      · exact .inl (mem_append_right _ hc)
      · rcases mem_cons.mp hc with rfl | hc
        · exact .inr rfl
        · exact .inl (mem_append_right _ (mem_of_mem_drop hc))
  · intro w fe _ hl
    by_cases hz : lost w = 0
    · rw [inFlight]
      simp only [reconnect,lose,if_pos hz]
      exact hl
    · -- what is left is accepted by a reader that is behind
      obtain ⟨fe₁,hf₁,hr⟩ := leads_append.mp hl
      rw [← take_append_drop (lost w) (s.writers w).outbox] at hr
      obtain ⟨fe₂,-,hd⟩ := leads_append.mp hr
      rw [inFlight]
      simp only [reconnect,lose,if_neg hz]
      exact leads_append.mpr ⟨fe₁,hf₁,leads_cons.mpr ⟨.behind,by cases fe₁ <;> rfl,hd.behind⟩⟩

end Sound

section Process

variable [DecidableEq Row] {s : System Row}

variable {r : Reader Row} {w : String}

/-- The reader goes over to `r`, having taken the first entry from the queue. It has to
be shown how it then is with each writer. -/
theorem process_sound_of (h : Sound s) {en : Entry Row} {q : List (Entry Row)}
    (hqueue : s.reader.queue = en::q) (hr : r.queue = q)
    (hn : r.generator.instanceName = s.reader.generator.instanceName)
    (hh : HandledSound s.writers r.handled)
    (hm : ∃ more, r.handled = s.reader.handled ++ more)
    (hp : r.pendingOf = none → r.pendingBatch = [])
    (hse : ∀ fe fe', FeedOf s en.instanceName fe →
      accept (s.writers en.instanceName).rows fe en.command = some fe' →
        en.instanceName ∈ r.behind ∨ FeedOf { s with reader := r } en.instanceName fe')
    (ho : ∀ w fe, w ≠ en.instanceName → FeedOf s w fe →
      w ∈ r.behind ∨ FeedOf { s with reader := r } w fe) : Sound { s with reader := r } := by
  obtain ⟨more,hm⟩ := hm
  have hif : ∀ w, inFlight s w = if w = en.instanceName
      then en.command::inFlight { s with reader := r } w
      else inFlight { s with reader := r } w := by
    intro w
    simp only [inFlight,hqueue,hr]
    by_cases hw : w = en.instanceName
    · subst hw
      simp
    · simp [hw,Ne.symm hw]
  -- what leads on from a feed leads on from `behind`
  have hl : ∀ {w fe}, Leads (s.writers w) fe (inFlight { s with reader := r } w) →
      w ∈ r.behind ∨ FeedOf { s with reader := r } w fe →
      ∃ fe final, FeedOf { s with reader := r } w fe ∧
        (inFlight { s with reader := r } w).foldlM (accept (s.writers w).rows) fe = some final ∧
          Ends (s.writers w) final := by
    rintro w fe hle (hbh | hf)
    · obtain ⟨final,hfo,he⟩ := hle.behind
      exact ⟨.behind,final,by rw [FeedOf,if_pos hbh],hfo,he⟩
    · obtain ⟨final,hfo,he⟩ := hle
      exact ⟨fe,final,hf,hfo,he⟩
  constructor
  · exact h.writer
  · intro e he
    rw [hr] at he
    rw [hn]
    exact h.others e (hqueue ▸ mem_cons_of_mem _ he)
  · intro w c hc
    refine h.bounded w c ?_
    rw [hif]
    split
    · exact mem_cons_of_mem _ hc
    · exact hc
  · exact hh
  · intro e he hd
    rw [hr] at he
    obtain ⟨pt,nk,hcm,hre⟩ := h.discarded e (hqueue ▸ mem_cons_of_mem _ he) hd
    exact ⟨pt,nk,hcm,hm ▸ hre.append more⟩
  · exact hp
  · intro w hw
    rw [hn] at hw
    obtain ⟨fe,hfe,hle⟩ := h.leads w hw
    rw [hif] at hle
    split at hle
    · rename_i heq
      obtain ⟨fe',ha,hle⟩ := leads_cons.mp hle
      subst heq
      exact hl hle (hse fe fe' hfe ha)
    · exact hl hle (ho w fe ‹_› hfe)

theorem miss_sound (h : Sound s) {e : Entry Row} {q : List (Entry Row)}
    (hqueue : s.reader.queue = e::q) : Sound { s with reader := { s.reader with
      queue := q, behind := insert e.instanceName s.reader.behind } } := by
  refine process_sound_of h hqueue rfl rfl h.handled ⟨[],(append_nil _).symm⟩ h.pending ?_ ?_
  · intro fe fe' _ _
    exact .inl (Finset.mem_insert_self _ _)
  · intro w fe hw hfe
    exact .inr (hfe.more (append_nil _).symm (by simp [hw]) rfl)

section Rdata

variable {e : Entry Row} {q : List (Entry Row)}
  (hqueue : s.reader.queue = e::q)
  (hbehind : e.instanceName ∉ s.reader.behind)
  (hbatch : s.reader.pendingOf = none ∨ s.reader.pendingOf = some e.instanceName)

include hbatch in
omit [DecidableEq Row] in
theorem pendingRows_self (hp : s.reader.pendingOf = none → s.reader.pendingBatch = []) :
    pendingRows s.reader e.instanceName = s.reader.pendingBatch := by
  rw [pendingRows]
  rcases hbatch with hn | hs
  · simp [hp hn]
  · rw [if_pos hs]

include hbatch in
omit [DecidableEq Row] in
theorem pendingRows_other {w : String} (hw : w ≠ e.instanceName) : pendingRows s.reader w = [] := by
  rw [pendingRows]
  rcases hbatch with hn | hs
  · simp [hn]
  · simp [hs,Ne.symm hw]

include hbehind in
omit [DecidableEq Row] in
theorem FeedOf.synced {fe : Feed Row} (h : FeedOf s e.instanceName fe) :
    ∃ up, fe = .synced up (pendingRows s.reader e.instanceName) ∧
      up ≤ (s.writers e.instanceName).currentToken ∧
      Reached s.reader.handled (s.writers e.instanceName).rows e.instanceName up := by
  unfold FeedOf at h
  rw [if_neg hbehind] at h
  exact h

include hqueue hbehind hbatch

variable {row : Row}

theorem addPending_sound (h : Sound s) (hcommand : e.command = .rdata none row) :
    Sound { s with reader := { s.reader with
      queue := q
      pendingBatch := s.reader.pendingBatch ++ [row]
      pendingOf := some e.instanceName } } := by
  refine process_sound_of h hqueue rfl rfl h.handled ⟨[],(append_nil _).symm⟩ (by simp) ?_ ?_
  · intro fe fe' hfe ha
    obtain ⟨up,rfl,hle,hr⟩ := hfe.synced hbehind
    rw [hcommand] at ha
    rw [← some.inj ha,pendingRows_self hbatch h.pending]
    exact .inr (feedOf_synced hbehind (if_pos rfl) hle hr)
  · intro w fe hw hfe
    refine .inr (hfe.more (append_nil _).symm Iff.rfl ?_)
    rw [pendingRows_other hbatch hw,pendingRows]
    simp [Ne.symm hw]

theorem batch_rows (h : Sound s) {tk : ℤ} (hcommand : e.command = .rdata (some tk) row) :
    ∃ up, Reached s.reader.handled (s.writers e.instanceName).rows e.instanceName up ∧
      between (s.writers e.instanceName).rows up tk = flat (tk,s.reader.pendingBatch ++ [row]) := by
  have ho := h.others e (hqueue ▸ mem_cons_self)
  obtain ⟨fe,final,hf,hfo,-⟩ := h.follows _ ho
  obtain ⟨up,rfl,-,hr⟩ := hf.synced hbehind
  rw [inFlight,hqueue,filter_cons,if_pos (by simp),map_cons,hcommand,
    pendingRows_self hbatch h.pending] at hfo
  obtain ⟨fe',hf',-⟩ := bind_eq_some_iff.mp hfo
  rw [accept] at hf'
  split at hf'
  · rename_i hc
    exact ⟨up,hr,hc.2⟩
  · cases hf'

theorem endBatch_sound (h : Sound s) {tk : ℤ} (hcommand : e.command = .rdata (some tk) row)
    {r : Reader Row} {more : List (Handled Row)} (hrq : r.queue = q)
    (hn : r.generator.instanceName = s.reader.generator.instanceName)
    (hm : r.handled = s.reader.handled ++ more) (hr : r.behind = s.reader.behind)
    (hpo : r.pendingOf = none) (hp : r.pendingBatch = []) (hh : HandledSound s.writers r.handled)
    (hrc : Reached r.handled (s.writers e.instanceName).rows e.instanceName tk)
    (hb : tk ≤ (s.writers e.instanceName).currentToken) : Sound { s with reader := r } := by
  have hro : ∀ w, pendingRows r w = [] := by simp [pendingRows,hpo]
  refine process_sound_of h hqueue hrq hn hh ⟨more,hm⟩ (fun _ => hp) ?_ ?_
  · intro fe fe' hf ha
    obtain ⟨up,rfl,-,-⟩ := hf.synced hbehind
    rw [hcommand,accept] at ha
    split at ha
    · rw [← some.inj ha]
      exact .inr (feedOf_synced (hr ▸ hbehind) (hro _) hb hrc)
    · cases ha
  · intro w fe hw hf
    refine .inr (hf.more hm (by rw [hr]) ?_)
    rw [pendingRows_other hbatch hw,hro]

theorem processRdata_sound (h : Sound s) {tk : Option ℤ} (hcm : e.command = .rdata tk row)
    (hc : e.conn ∈ s.reader.streamsByConnection)
    (hco : Reached s.reader.handled (s.writers e.instanceName).rows e.instanceName
      (currentToken s.reader e.instanceName)) : Sound { s with reader := (
      processRdata e.instanceName e.conn tk row (setQueue q s.reader)) } := by
  have hpr : processRdata e.instanceName e.conn tk row (setQueue q s.reader) =
      _ := if_neg (not_not.mpr hc)
  rw [hpr]
  cases tk with
  | none => exact addPending_sound hqueue hbehind hbatch h hcm
  | some tk =>
    dsimp only
    have hb : tk ≤ (s.writers e.instanceName).currentToken := by
      have hm : e.command ∈ inFlight s e.instanceName := by
        refine mem_append_left _ (mem_map_of_mem (mem_filter.mpr ⟨?_,by simp⟩))
        exact hqueue ▸ mem_cons_self
      have hle := h.bounded _ _ hm
      rw [hcm] at hle
      exact hle
    split
    · rename_i hpa
      exact endBatch_sound hqueue hbehind hbatch h hcm rfl rfl (append_nil _).symm rfl rfl
        rfl h.handled (hco.mono hpa) hb
    · obtain ⟨up,hr,hbe⟩ := batch_rows hqueue hbehind hbatch h hcm
      have hr' : Reached (s.reader.handled ++ [⟨e.instanceName,tk,s.reader.pendingBatch ++ [row]⟩])
          (s.writers e.instanceName).rows e.instanceName tk := by
        refine (hr.append _).of_between (fun p hp => ?_)
        rw [hbe] at hp
        obtain ⟨row',hrow',rfl⟩ := mem_map.mp hp
        exact ⟨_,mem_append_right _ (mem_singleton_self _),rfl,rfl,hrow'⟩
      refine endBatch_sound hqueue hbehind hbatch h hcm rfl rfl rfl rfl rfl rfl ?_ hr' hb
      refine h.handled.append ?_ hb hr'
      intro row' hrow'
      have hm : (tk,row') ∈ flat (tk,s.reader.pendingBatch ++ [row]) := mem_map_of_mem hrow'
      rw [← hbe] at hm
      exact (mem_between.mp hm).1

end Rdata

section Position

variable {entry : Entry Row} {queue : List (Entry Row)} {pt nt : ℤ}
  (hqueue : s.reader.queue = entry::queue)
  (hcommand : entry.command = .position pt nt)

theorem accept_position {rws : List (ℤ × Row)} {fe fe' : Feed Row}
    (h : accept rws fe (.position pt nt) = some fe') :
    fe' = .synced nt [] ∧ between rws pt nt = [] ∧ ∀ up pd, fe = .synced up pd → pd = [] := by
  cases fe with
  | behind =>
    rw [accept] at h
    split at h
    · exact ⟨(some.inj h).symm,‹_›,fun _ _ hf => by cases hf⟩
    · cases h
  | synced up pd =>
    rw [accept] at h
    split at h
    · rename_i hc
      refine ⟨(some.inj h).symm,hc.2.2.1,fun _ _ hf => ?_⟩
      injection hf with _ hp
      rw [← hp]
      exact hc.1
    · cases h

include hqueue hcommand

theorem position_rows (h : Sound s) :
    nt ≤ (s.writers entry.instanceName).currentToken ∧
      between (s.writers entry.instanceName).rows pt nt = [] := by
  have ho := h.others entry (hqueue ▸ mem_cons_self)
  obtain ⟨fe,final,-,hf,-⟩ := h.follows _ ho
  have hif : inFlight s entry.instanceName = entry.command::(
      (queue.filter (·.instanceName = entry.instanceName)).map Entry.command ++
        (s.writers entry.instanceName).outbox) := by
    rw [inFlight,hqueue,filter_cons,if_pos (by simp)]
    rfl
  have hb := h.bounded entry.instanceName entry.command (hif ▸ mem_cons_self)
  rw [hif,hcommand] at hf
  obtain ⟨fe',hfe',-⟩ := bind_eq_some_iff.mp hf
  rw [hcommand] at hb
  exact ⟨hb,(accept_position hfe').2.1⟩

theorem discardPosition_sound (h : Sound s)
    (hre : Reached s.reader.handled (s.writers entry.instanceName).rows entry.instanceName nt) :
    Sound { s with reader := discardPosition entry.instanceName (setQueue queue s.reader) } := by
  have hb := (position_rows hqueue hcommand h).1
  refine process_sound_of h hqueue rfl rfl h.handled ⟨[],(append_nil _).symm⟩ h.pending ?_ ?_
  · intro fe fe' hf ha
    rw [hcommand] at ha
    obtain ⟨rfl,-,hp⟩ := accept_position ha
    by_cases hpo : s.reader.pendingOf = some entry.instanceName
    · have hbh : (discardPosition entry.instanceName (setQueue queue s.reader)).behind =
          s.reader.behind := if_pos hpo
      rw [hbh]
      by_cases hbehind : entry.instanceName ∈ s.reader.behind
      · -- rows of a batch that was missed in part are still pending
        exact .inl hbehind
      · obtain ⟨up,hf,-⟩ := hf.synced hbehind
        exact .inr (feedOf_synced (hbh ▸ hbehind) (hp _ _ hf) hb hre)
    · refine .inr (feedOf_synced ?_ (if_neg hpo) hb hre)
      rw [discardPosition]
      exact if_neg hpo ▸ Finset.notMem_erase _ _
  · intro w fe hw hf
    refine .inr (hf.more (append_nil _).symm ?_ rfl)
    rw [discardPosition]
    split
    · rfl
    · rw [Finset.mem_erase,and_iff_right hw]
      rfl

theorem catchUp_sound (h : Sound s) {r : Reader Row} (more : List (Handled Row))
    (hrq : r.queue = queue) (hn : r.generator.instanceName = s.reader.generator.instanceName)
    (hmo : r.handled = s.reader.handled ++ more)
    (hbh : r.behind = (s.reader.behind ∪ s.reader.pendingOf.toFinset).erase entry.instanceName)
    (hpo : r.pendingOf = none) (hp : r.pendingBatch = []) (hh : HandledSound s.writers r.handled)
    (hre : Reached r.handled (s.writers entry.instanceName).rows entry.instanceName nt) :
    Sound { s with reader := r } := by
  have hb := (position_rows hqueue hcommand h).1
  have hr : ∀ w, pendingRows r w = [] := by simp [pendingRows,hpo]
  refine process_sound_of h hqueue hrq hn hh ⟨more,hmo⟩ (fun _ => hp) ?_ ?_
  · intro fe fe' _ ha
    rw [hcommand] at ha
    obtain ⟨rfl,-,-⟩ := accept_position ha
    refine .inr (feedOf_synced ?_ (hr _) hb hre)
    rw [hbh]
    exact Finset.notMem_erase _ _
  · intro w fe hw hfe
    rw [hbh]
    by_cases hm : s.reader.pendingOf = some w
    · exact .inl (by simp [hw,hm])
    · refine .inr (hfe.more hmo ?_ ?_)
      · rw [hbh]
        simp [hw,hm]
      · rw [hr,pendingRows,if_neg hm]

theorem catchUp_reached (u : UpdateFunction Row) (h : Sound s) {r : Reader Row}
    (hg : r.generator = s.reader.generator) (hh : r.handled = s.reader.handled)
    (hc : Reached s.reader.handled (s.writers entry.instanceName).rows entry.instanceName
      (currentToken s.reader entry.instanceName)) :
    Kept r (catchUp u (s.writers entry.instanceName).rows entry.instanceName pt nt r) ∧
      HandledSound s.writers (catchUp u (s.writers entry.instanceName).rows entry.instanceName
        pt nt r).handled ∧
      Reached (catchUp u (s.writers entry.instanceName).rows entry.instanceName pt nt
        r).handled (s.writers entry.instanceName).rows entry.instanceName nt := by
  obtain ⟨hb,hn⟩ := position_rows hqueue hcommand h
  have ht : currentToken r entry.instanceName = currentToken s.reader entry.instanceName := by
    rw [currentToken,hg]
    rfl
  rw [← ht,← hh] at hc
  unfold catchUp
  dsimp only
  split
  · rename_i hco
    refine ⟨Kept.refl r,hh ▸ h.handled,hc.of_between (fun p hp => ?_)⟩
    rw [between_nil_mono hco.1 le_rfl hn] at hp
    cases hp
  · exact fetchMissing_spec (h.writer _).sorted _ (Nat.lt_succ_self _) hb (hh ▸ h.handled) hc

theorem processPosition_sound (u : UpdateFunction Row) (h : Sound s)
    (hc : Reached s.reader.handled (s.writers entry.instanceName).rows entry.instanceName
      (currentToken s.reader entry.instanceName)) :
    Sound { s with reader := (processPosition u (s.writers entry.instanceName).rows
      entry.instanceName entry.conn pt nt (setQueue queue s.reader)) } := by
  obtain ⟨hb,-⟩ := position_rows hqueue hcommand h
  unfold processPosition
  split
  · rename_i hd
    simp only [canDiscardPosition,decide_eq_true_eq] at hd
    exact discardPosition_sound hqueue hcommand h (hc.mono hd.1)
  · dsimp only
    obtain ⟨hk,hh,hr⟩ := catchUp_reached hqueue hcommand u h
      (r := disconnectStream entry.instanceName (setQueue queue s.reader)) rfl rfl hc
    obtain ⟨more,hm⟩ := hk.handled
    have hr' := hr.append [⟨entry.instanceName,nt,[]⟩]
    refine catchUp_sound hqueue hcommand h (more ++ [⟨entry.instanceName,nt,[]⟩])
      hk.queue hk.instanceName ?_ hk.behind hk.pendingOf hk.pendingBatch ?_ hr'
    · rw [onRdata,hm,← append_assoc]
      rfl
    · exact hh.append (by simp) hb hr'

end Position

end Process

section Conditions

variable [DecidableEq Row]

instance (handled : List (Handled Row)) (instanceName : String) (p : ℤ × Row) :
    Decidable (Delivered handled instanceName p) :=
  inferInstanceAs (Decidable (∃ h ∈ handled, _))

/-- The generator of the reader has not passed a row of the writer that the reader was
neither sent nor told the position of. -/
def Covered (s : System Row) (w : String) : Prop :=
  ∀ p ∈ (s.writers w).rows, p.1 ≤ currentToken s.reader w →
    Delivered s.reader.handled w p ∨ ∃ h ∈ s.reader.handled, h.instanceName = w ∧ p.1 ≤ h.token

instance (s : System Row) (w : String) : Decidable (Covered s w) :=
  inferInstanceAs (Decidable (∀ p ∈ (s.writers w).rows, _))

def isRdata : Command Row → Bool
  | .rdata _ _ => true
  | _ => false

/-- A row is processed only if nothing of its writer was missed since the last position
of the writer, and if no rows of another writer are pending. -/
def InSequence (s : System Row) (entry : Entry Row) : Prop :=
  entry.conn ∈ s.reader.streamsByConnection → isRdata entry.command →
    entry.instanceName ∉ s.reader.behind ∧
      (s.reader.pendingOf = none ∨ s.reader.pendingOf = some entry.instanceName)

instance (s : System Row) (entry : Entry Row) : Decidable (InSequence s entry) :=
  inferInstanceAs (Decidable (_ → _ → _))

def Admits : Op Row → System Row → Prop
  | .receive w, s => Covered s w
  | .process, s => ∀ entry ∈ s.reader.queue.head?, Covered s entry.instanceName ∧ InSequence s entry
  | _, _ => True

instance (op : Op Row) (s : System Row) : Decidable (Admits op s) :=
  match op with
  | .receive w => inferInstanceAs (Decidable (Covered s w))
  | .process => inferInstanceAs (Decidable (∀ entry ∈ s.reader.queue.head?, _))
  | .write _ _ _ | .sendUpdates _ | .announcePosition _ | .discardUpdatesAndAdvance _
  | .reconnect _ => inferInstanceAs (Decidable True)

variable (u : UpdateFunction Row) (isCaches : Bool)

abbrev Admitted : List (Op Row) → System Row → Prop := Runs.Admitted (step u isCaches) Admits

end Conditions

section Main

variable [DecidableEq Row] {s : System Row}

theorem Covered.reached (h : Sound s) {w : String} (hc : Covered s w) :
    Reached s.reader.handled (s.writers w).rows w (currentToken s.reader w) := by
  intro p hp hle
  rcases hc p hp hle with hd | ⟨x,hx,rfl,hle'⟩
  · exact hd
  · exact h.handled.reached hx p hp hle'

theorem process_sound (u : UpdateFunction Row) (h : Sound s)
    (ha : ∀ e ∈ s.reader.queue.head?, Covered s e.instanceName ∧ InSequence s e) :
    Sound (process u s) := by
  unfold process
  cases hqueue : s.reader.queue with
  | nil => exact h
  | cons e q =>
    obtain ⟨hco,hs⟩ := ha e (by rw [hqueue]; rfl)
    have hr := hco.reached h
    dsimp only
    unfold processCommand
    cases hcommand : e.command with
    | lost => exact miss_sound h hqueue
    | rdata tk row =>
      dsimp only
      by_cases hc : e.conn ∈ s.reader.streamsByConnection
      · obtain ⟨hbh,hbatch⟩ := hs hc (by rw [hcommand]; rfl)
        exact processRdata_sound hqueue hbh hbatch h hcommand hc hr
      · have hdr : processRdata e.instanceName e.conn tk row (setQueue q s.reader) = _ := if_pos hc
        rw [hdr]
        exact miss_sound h hqueue
    | position pt nk =>
      dsimp only
      split
      · next hd =>
        obtain ⟨pt',nt',hc',hn⟩ := h.discarded e (hqueue ▸ mem_cons_self) hd
        exact discardPosition_sound hqueue hc' h hn
      · exact processPosition_sound hqueue hcommand u h hr

theorem step_sound (u : UpdateFunction Row) (isCaches : Bool) (op : Op Row) (s : System Row)
    (h : Sound s) (ha : Admits op s) : Sound (step u isCaches op s) := by
  cases op with
  | write w rw up =>
    obtain ⟨nw,he⟩ := extends_write (h.writer w) rw up
    exact update_sound h he
  | sendUpdates w =>
    obtain ⟨cmds,he⟩ := extends_sendUpdates u isCaches (h.writer w)
    exact update_sound h he
  | announcePosition w => exact update_sound h (extends_announcePosition (h.writer w))
  | discardUpdatesAndAdvance w => exact update_sound h (extends_discard (h.writer w))
  | receive w => exact receive_sound h (Covered.reached h ha)
  | reconnect lost => exact reconnect_sound h lost
  | process => exact process_sound u h ha

/-- In every run in which rows are processed in sequence, the data handler has got all
rows that a writer wrote up to the position that it is told of the writer, and gets
rows under the writer and the position that they were written with. -/
theorem reader_reaches (u : UpdateFunction Row) (isCaches : Bool) (reader : String)
    (writers : List String) (ops : List (Op Row))
    (hadmitted : Admitted u isCaches ops (start reader writers)) :
    ∀ before h after,
      (run u isCaches ops (start reader writers)).reader.handled = before ++ h::after →
      (∀ p ∈ ((run u isCaches ops (start reader writers)).writers h.instanceName).rows,
        p.1 ≤ h.token → Delivered (before ++ [h]) h.instanceName p) ∧ ∀ row ∈ h.rows,
        (h.token,row) ∈
          ((run u isCaches ops (start reader writers)).writers h.instanceName).rows := by
  have hsound : Sound (run u isCaches ops (start reader writers)) :=
    hadmitted.invariant (step_sound u isCaches) (start_sound reader writers)
  intro before h after heq
  refine ⟨hsound.handled.told before h after heq,hsound.handled.written h ?_⟩
  exact heq ▸ mem_append_right _ mem_cons_self

def allRows : UpdateFunction String where
  fetch rows fromToken uptoToken := (between rows fromToken uptoToken,uptoToken,false)
  updates _ _ _ := rfl
  upto_le _ _ _ := le_rfl
  limited _ _ _ h := by simp at h
  complete _ _ _ _ := rfl

def announced : List (Op String) :=
  [.announcePosition "w1",.announcePosition "w2",.receive "w1",.process,.receive "w2",.process]

def reconnected : List (Op String) :=
  announced ++ [.write "w1" [(2,"a"),(2,"b")] 2,.sendUpdates "w1",.receive "w1",.receive "w1",
    .process,.process,.write "w2" [(3,"c")] 3,.sendUpdates "w2",.reconnect (fun _ => 1),
    .announcePosition "w2",.receive "w2",.receive "w2",.process,.process]

theorem reader_reaches_reconnected :
    Admitted allRows false reconnected (start "r" ["w1","w2"]) ∧
      (run allRows false reconnected (start "r" ["w1","w2"])).reader.handled =
        [⟨"w1",1,[]⟩,⟨"w1",2,["a","b"]⟩] ++ [⟨"w2",3,["c"]⟩,⟨"w2",3,[]⟩] ∧
      ∀ p ∈ ((run allRows false reconnected (start "r" ["w1","w2"])).writers "w2").rows,
        p.1 ≤ 3 → Delivered [⟨"w1",1,[]⟩,⟨"w1",2,["a","b"]⟩,⟨"w2",3,["c"]⟩] "w2" p := by
  have hadmitted : Admitted allRows false reconnected (start "r" ["w1","w2"]) := by decide +kernel
  have hhandled : (run allRows false reconnected (start "r" ["w1","w2"])).reader.handled =
      [⟨"w1",1,[]⟩,⟨"w1",2,["a","b"]⟩] ++ [⟨"w2",3,["c"]⟩,⟨"w2",3,[]⟩] := by decide +kernel
  exact ⟨hadmitted,hhandled,(reader_reaches allRows false "r" ["w1","w2"] reconnected hadmitted
    _ _ _ hhandled).1⟩

def rowBetween : List (Op String) :=
  announced ++ [.write "w1" [(2,"a"),(2,"b")] 2,.write "w2" [(3,"c")] 3,.sendUpdates "w1",
    .sendUpdates "w2",.receive "w1",.receive "w2",.receive "w1",.process,.process,.process]

def positionBetween : List (Op String) :=
  announced ++ [.write "w1" [(2,"a"),(2,"b")] 2,.write "w2" [] 3,.sendUpdates "w1",
    .sendUpdates "w2",.receive "w1",.receive "w2",.receive "w1",.process,.process,.process]

/-- The first row of the batch is handed over under the other writer, or is dropped. -/
theorem batch_of_another_writer :
    ((run allRows false rowBetween (start "r" ["w1","w2"])).reader.handled =
        [⟨"w1",1,[]⟩,⟨"w2",3,["a","c"]⟩,⟨"w1",2,["b"]⟩] ∧
      (3,"a") ∉ ((run allRows false rowBetween (start "r" ["w1","w2"])).writers "w2").rows) ∧
    ((run allRows false positionBetween (start "r" ["w1","w2"])).reader.handled =
        [⟨"w1",1,[]⟩,⟨"w2",3,[]⟩,⟨"w1",2,["b"]⟩] ∧
      (2,"a") ∈ ((run allRows false positionBetween (start "r" ["w1","w2"])).writers "w1").rows ∧
      ¬Delivered (run allRows false positionBetween (start "r" ["w1","w2"])).reader.handled "w1"
        (2,"a")) := by
  decide +kernel

end Main

end Synapse.ReplicationStream
