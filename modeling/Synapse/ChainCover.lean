import Synapse.References

/-!
# Chain covers of a graph of references

Nodes are placed at positions, pairs of a chain and a sequence number, such
that a node refers to the one right below it. Links lead from the position of
a node to that of one it refers to. A node leads to another exactly when its
position reaches the other's by steps down a chain and along links.
-/

set_option autoImplicit false

namespace Synapse.ChainCover
open References Relation Option Function

variable {α C D : Type}

abbrev Position (C : Type) := C × ℕ

section Reach

variable {links lks' : Set (Position C × Position C)} {p q r : Position C}

/-- A step down within a chain, or along a link that starts at or below the
position. -/
inductive Step (links : Set (Position C × Position C)) : Position C → Position C → Prop
  | down (c : C) {s t : ℕ} (h : t ≤ s) : Step links (c,s) (c,t)
  | along (c : C) {s t : ℕ} {q : Position C} (hl : ((c,t),q) ∈ links) (h : t ≤ s) :
      Step links (c,s) q

def Reaches (links : Set (Position C × Position C)) : Position C → Position C → Prop :=
  ReflTransGen (Step links)

theorem Step.mono (hs : links ⊆ lks') (h : Step links p q) : Step lks' p q := by
  cases h with
  | down c hle => exact .down c hle
  | along c hl hle => exact .along c (hs hl) hle

theorem Reaches.mono (hsub : links ⊆ lks') (h : Reaches links p q) : Reaches lks' p q := by
  induction h with
  | refl => exact .refl
  | tail _ hs ih => exact ih.tail (hs.mono hsub)

theorem Reaches.trans (h : Reaches links p q) (h' : Reaches links q r) : Reaches links p r :=
  ReflTransGen.trans h h'

theorem Reaches.leaves (h : Reaches links p q) (hne : q.1 ≠ p.1) :
    ∃ t r, ((p.1,t),r) ∈ links ∧ t ≤ p.2 ∧ Reaches links r q := by
  induction h using ReflTransGen.head_induction_on with
  | refl => exact absurd rfl hne
  | head hs hr ih =>
    cases hs with
    | down c hle =>
      obtain ⟨t,r,hl,ht,hrq⟩ := ih hne
      exact ⟨t,r,hl,ht.trans hle,hrq⟩
    | along c hl hle => exact ⟨_,_,hl,hle,hr⟩

end Reach

section Placement

variable (next : α → List α) (place : α → Option (Position C))

structure Placed : Prop where
  unique : ∀ a b p, place a = some p → place b = some p → a = b
  positive : ∀ a c s, place a = some (c,s) → 1 ≤ s
  below : ∀ a c s, place a = some (c,s+1) → 1 ≤ s → ∃ b ∈ next a, place b = some (c,s)

variable {next place}

section

variable (h : Placed next place)
include h

theorem Placed.chain {a : α} {c : C} {s t : ℕ} (ha : place a = some (c,s)) (ht : 1 ≤ t)
    (hle : t ≤ s) : ∃ b, place b = some (c,t) ∧ ReflTransGen (Refers next) b a := by
  induction s generalizing a with
  | zero => omega
  | succ s ih =>
    by_cases heq : t = s+1
    · subst heq
      exact ⟨a,ha,.refl⟩
    · obtain ⟨b,hb,hp⟩ := h.below a c s ha (by omega)
      obtain ⟨d,hd,hr⟩ := ih hp (by omega)
      exact ⟨d,hd,hr.tail hb⟩

theorem Placed.numbers (hf : {a | (place a).isSome}.Finite) (c : C) :
    ∃ n, ∀ s, (∃ a, place a = some (c,s)) ↔ 1 ≤ s ∧ s ≤ n := by
  have hbn : BddAbove {s | ∃ a, place a = some (c,s)} := by
    apply Set.Finite.bddAbove
    apply (hf.image (fun a => ((place a).map Prod.snd).getD 0)).subset
    rintro s ⟨a,ha⟩
    exact ⟨a,by simp [ha],by simp [ha]⟩
  obtain ⟨bd,hbo⟩ := hbn
  by_cases he : ∃ s a, place a = some (c,s)
  · classical
    obtain ⟨s₀,a₀,h₀⟩ := he
    obtain ⟨n,hn⟩ : ∃ n, n = Nat.findGreatest (fun s => ∃ a, place a = some (c,s)) bd := ⟨_,rfl⟩
    have ht : ∃ a, place a = some (c,n) :=
      hn ▸ Nat.findGreatest_spec (P := fun s => ∃ a, place a = some (c,s)) (hbo ⟨a₀,h₀⟩) ⟨a₀,h₀⟩
    refine ⟨n,?_⟩
    intro s
    constructor
    · rintro ⟨a,ha⟩
      refine ⟨h.positive a c s ha,?_⟩
      exact hn ▸ Nat.le_findGreatest (P := fun s => ∃ a, place a = some (c,s)) (hbo ⟨a,ha⟩) ⟨a,ha⟩
    · rintro ⟨hp,hle⟩
      obtain ⟨a,ha⟩ := ht
      obtain ⟨b,hb,-⟩ := h.chain ha hp hle
      exact ⟨b,hb⟩
  · refine ⟨0,?_⟩
    intro s
    constructor
    · rintro ⟨a,ha⟩
      exact absurd ⟨s,a,ha⟩ he
    · omega

theorem Placed.insert [DecidableEq α] {x : α} (hx : place x = none) {c : C}
    {n : ℕ} (hf : ∀ a, place a ≠ some (c,n)) (hpos : 1 ≤ n)
    (hbe : ∀ s, n = s+1 → 1 ≤ s → ∃ b ∈ next x, place b = some (c,s)) :
    Placed next (update place x (some (c,n))) := by
  have ho : ∀ b p, place b = some p → update place x (some (c,n)) b = some p := by
    intro b p hb
    have hne : b ≠ x := by
      rintro rfl
      simp [hx] at hb
    rw [update_of_ne hne,hb]
  refine ⟨?_,?_,?_⟩
  · intro a b p ha hb
    rw [update_apply] at ha hb
    split at ha <;> split at hb
    · simp [*]
    · exact absurd (hb.trans ha.symm) (hf b)
    · exact absurd (ha.trans hb.symm) (hf a)
    · exact h.unique a b p ha hb
  · intro a d s ha
    rw [update_apply] at ha
    split at ha
    · obtain ⟨-,rfl⟩ := Prod.mk.inj (some.inj ha)
      exact hpos
    · exact h.positive a d s ha
  · intro a d s ha hs
    rw [update_apply] at ha
    split at ha
    · next hax =>
      subst hax
      obtain ⟨rfl,hn⟩ := Prod.mk.inj (some.inj ha)
      obtain ⟨b,hb,hp⟩ := hbe s hn hs
      exact ⟨b,hb,ho b _ hp⟩
    · obtain ⟨b,hb,hp⟩ := h.below a d s ha hs
      exact ⟨b,hb,ho b _ hp⟩

theorem Placed.rename (f : C → D)
    (hf : ∀ a b c d s t, place a = some (c,s) → place b = some (d,t) → f c = f d → c = d) :
    Placed next (fun a => (place a).map (fun p => (f p.1,p.2))) := by
  have hp : ∀ {a : α} {d : D} {s : ℕ}, (place a).map (fun p => (f p.1,p.2)) = some (d,s) →
      ∃ c, place a = some (c,s) ∧ f c = d := by
    intro a d s ha
    obtain ⟨⟨c,t⟩,hc,heq⟩ := map_eq_some_iff.mp ha
    obtain ⟨hfc,rfl⟩ := Prod.mk.inj heq
    exact ⟨c,hc,hfc⟩
  refine ⟨?_,?_,?_⟩
  · rintro a b ⟨d,s⟩ ha hb
    obtain ⟨c,hc,hfc⟩ := hp ha
    obtain ⟨c',hc',hfc'⟩ := hp hb
    obtain rfl := hf a b c c' s s hc hc' (hfc.trans hfc'.symm)
    exact h.unique a b _ hc hc'
  · intro a d s ha
    obtain ⟨c,hc,-⟩ := hp ha
    exact h.positive a c s hc
  · intro a d s ha hs
    obtain ⟨c,hc,rfl⟩ := hp ha
    obtain ⟨b,hb,hl⟩ := h.below a c s hc hs
    exact ⟨b,hb,by simp [hl]⟩

end

end Placement

section Cover

variable (next : α → List α) (place : α → Option (Position C))
  (links : Set (Position C × Position C))

/-- Links lead from a node's position to that of a node it refers to. -/
def Sound : Prop :=
  ∀ p q, (p,q) ∈ links → ∃ a b, place a = some p ∧ place b = some q ∧ b ∈ next a

variable [DecidableEq α]

/-- The references that a node lists once. -/
def once (a : α) : List α := (next a).filter (fun b => b ∉ (next a).erase b)

/-- A reference that a node repeats is on its own chain, or another one leads to it. -/
def RepeatsReached : Prop :=
  ∀ a p, place a = some p → ∀ b ∈ (next a).erase b, ∀ q, place b = some q →
    q.1 = p.1 ∨ ∃ c ∈ next a, c ≠ b ∧ ReflTransGen (Refers next) b c

def ReachesNode (a b : α) : Prop :=
  ∃ p q, place a = some p ∧ place b = some q ∧ Reaches links p q

/-- Repeated references have no links. -/
structure Covers : Prop where
  placed : Placed next place
  closed : ∀ a p, place a = some p → ∀ b ∈ next a, ∃ q, place b = some q
  sound : Sound (once next) place links
  complete : RepeatsReached next place → ∀ a p, place a = some p → ∀ b ∈ next a,
    ∀ q, place b = some q → Reaches links p q

variable {next place links}

variable {p q : Position C} {a b : α}

theorem RepeatsReached.mono {place' : α → Option (Position C)} (h : RepeatsReached next place)
    (hle : ∀ a p, place' a = some p → place a = some p) : RepeatsReached next place' :=
  fun a p ha b hb q hq => h a p (hle a p ha) b hb q (hle b q hq)

theorem repeatsReached_of_nodup (h : ∀ a, (next a).Nodup) : RepeatsReached next place := by
  intro a p _ b hb
  exact absurd rfl ((h a).mem_erase_iff.mp hb).1

theorem sound_of_once (h : Sound (once next) place links) : Sound next place links := by
  intro p q hl
  obtain ⟨a,b,ha,hb,hba⟩ := h p q hl
  exact ⟨a,b,ha,hb,List.mem_of_mem_filter hba⟩

omit [DecidableEq α] in
theorem Placed.reaches_sound (h : Placed next place) (hs : Sound next place links)
    (ha : place a = some p) (hr : Reaches links p q) :
    q.2 = 0 ∨ ∃ b, place b = some q ∧ ReflTransGen (Refers next) b a := by
  induction hr with
  | refl => exact .inr ⟨a,ha,.refl⟩
  | tail _ hst ih =>
    cases hst with
    | @down c s t hle =>
      rcases Nat.eq_zero_or_pos t with ht | ht
      · exact .inl ht
      · rcases ih with hz | ⟨b,hb,hba⟩
        · omega
        · obtain ⟨d,hd,hdb⟩ := h.chain hb ht hle
          exact .inr ⟨d,hd,hdb.trans hba⟩
    | @along c s t q hl hle =>
      obtain ⟨o,d,ho,hd,hdo⟩ := hs _ _ hl
      have ht := h.positive o c t ho
      rcases ih with hz | ⟨b,hb,hba⟩
      · omega
      · obtain ⟨o',ho',hob⟩ := h.chain hb ht hle
        obtain rfl := h.unique o o' _ ho ho'
        exact .inr ⟨d,hd,(hob.trans hba).head hdo⟩

omit [DecidableEq α] in
theorem Placed.leads_of_reaches (h : Placed next place) (hs : Sound next place links)
    (ha : place a = some p) (hb : place b = some q) (hr : Reaches links p q) :
    ReflTransGen (Refers next) b a := by
  rcases h.reaches_sound hs ha hr with hz | ⟨d,hd,hda⟩
  · have := h.positive b q.1 q.2 hb
    omega
  · obtain rfl := h.unique b d q hb hd
    exact hda

theorem Covers.reachesNode_iff (h : Covers next place links) (hrep : RepeatsReached next place) :
    ReachesNode place links a b ↔
      (∃ p, place a = some p) ∧ ReflTransGen (Refers next) b a := by
  constructor
  · rintro ⟨p,q,ha,hb,hr⟩
    exact ⟨⟨p,ha⟩,h.placed.leads_of_reaches (sound_of_once h.sound) ha hb hr⟩
  · rintro ⟨⟨p,ha⟩,hl⟩
    -- along the references from `a`, every node is placed and reached
    induction hl using ReflTransGen.head_induction_on with
    | refl => exact ⟨p,p,ha,ha,.refl⟩
    | head hs _ ih =>
      obtain ⟨p',q,ha',hq,hre⟩ := ih
      obtain ⟨r,hr⟩ := h.closed _ _ hq _ hs
      exact ⟨p',r,ha',hr,hre.trans (h.complete hrep _ _ hq _ hs _ hr)⟩

theorem Covers.exact (h : Covers next place links) (hrep : RepeatsReached next place)
    (ha : place a = some p) (hb : place b = some q) :
    ReflTransGen (Refers next) b a ↔ Reaches links p q := by
  have hiff := h.reachesNode_iff hrep (a := a) (b := b)
  simpa [ReachesNode,ha,hb] using hiff.symm

theorem Covers.exact_iff (h : Covers next place links) :
    (∀ a b, ReachesNode place links a b ↔
      (∃ p, place a = some p) ∧ ReflTransGen (Refers next) b a) ↔
    RepeatsReached next place := by
  refine ⟨?_,fun hrep a b => h.reachesNode_iff hrep⟩
  intro hexact a p ha b hb q hq
  by_contra hnot
  obtain ⟨hne,hnone⟩ := not_or.mp hnot
  have hin := List.mem_of_mem_erase hb
  obtain ⟨p',q',ha',hq',hr⟩ := (hexact a b).mpr ⟨⟨p,ha⟩,.single hin⟩
  obtain rfl := some.inj (ha.symm.trans ha')
  obtain rfl := some.inj (hq.symm.trans hq')
  obtain ⟨t,r,hl,ht,hrq⟩ := hr.leaves hne
  obtain ⟨o,d,ho,hd,hdo⟩ := h.sound _ _ hl
  have hlead := h.placed.leads_of_reaches (sound_of_once h.sound) hd hq hrq
  obtain ⟨hdn,hdr⟩ := List.mem_filter.mp hdo
  rcases Nat.eq_or_lt_of_le ht with rfl | hlt
  · obtain rfl := h.placed.unique o a _ ho ha
    refine hnone ⟨d,hdn,?_,hlead⟩
    rintro rfl
    exact of_decide_eq_true hdr hb
  · -- the link starts further down, so that the node below leads to it
    obtain ⟨s,hs⟩ := Nat.exists_eq_add_of_lt hlt
    obtain ⟨c,hc,hpc⟩ := h.placed.below a p.1 (t+s) (by rw [ha,← hs])
      ((h.placed.positive o _ _ ho).trans (Nat.le_add_right t s))
    obtain ⟨o',ho',hoc⟩ := h.placed.chain hpc (h.placed.positive o _ _ ho) (Nat.le_add_right t s)
    obtain rfl := h.placed.unique o o' _ ho ho'
    refine hnone ⟨c,hc,?_,(hlead.tail hdn).trans hoc⟩
    rintro rfl
    obtain rfl := some.inj (hq.symm.trans hpc)
    exact hne rfl

omit [DecidableEq α] in
/-- References that another reference already reaches need no link of their
own: in an acyclic graph some reference that is reached directly lies above
each of them. -/
theorem Placed.reaches_of_pruned (h : Placed next place) (hs : Sound next place links)
    (wf : WellFounded (Refers next)) {x : α}
    (hpr : ∀ b ∈ next x, ∀ q, place b = some q → Reaches links p q ∨
      ∃ b' ∈ next x, b' ≠ b ∧ ∃ q', place b' = some q' ∧ Reaches links q' q) (hb : b ∈ next x)
    (hp : place b = some q) : Reaches links p q := by
  -- the reference that reaches `b` weighs more, and none weighs more than `x`
  induction hn : weight wf x-weight wf b using Nat.strong_induction_on generalizing b q with
  | _ n ih =>
    rcases hpr b hb q hp with hd | ⟨b',hb',hne,q',hq',hr⟩
    · exact hd
    · have hl := h.leads_of_reaches hs hq' hp hr
      have hle : weight wf b < weight wf b' := by
        rcases reflTransGen_iff_eq_or_transGen.mp hl with heq | ht
        · exact absurd heq hne
        · exact weight_lt_of_transGen wf ht
      have hx : weight wf b' < weight wf x := weight_lt wf hb'
      exact (ih _ (by omega) hb' hq' rfl).trans hr

end Cover

end Synapse.ChainCover
