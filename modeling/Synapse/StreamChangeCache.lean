import Synapse.SortedDict
import Synapse.Dict

/-!
# The stream change cache

`cache` sends a stream position to the entities that last changed there and
`entityToKey` sends an entity to that position. Positions below
`earliestKnownStreamPos` are unknown. Eviction pops the least position, so it
raises the bound past everything it forgets. A method may raise a `KeyError`
after it has changed the cache, so every method returns the state it leaves
together with how it exited.
-/

set_option autoImplicit false

namespace Synapse.StreamChangeCache
open List Dict Finset

inductive Exit where
  | returned
  | keyError
  deriving DecidableEq

structure Cache (E : Type*) where
  originalMaxSize : ℤ
  maxSize : ℤ
  cache : SortedDict ℤ (List E)
  entityToKey : Dict E ℤ
  earliestKnownStreamPos : ℤ

inductive Collection (E : Type*) where
  | set (s : Finset E)
  | other (l : List E)

variable {E : Type*} [DecidableEq E]

def Collection.toSet : Collection E → Finset E
  | .set s => s
  | .other l => l.toFinset

def Collection.len : Collection E → ℕ
  | .set s => s.card
  | .other l => l.length

def forgetFirst (c : Cache E) (k : ℤ) (r : List E) (rest : SortedDict ℤ (List E)) : Cache E :=
  { c with
    cache := rest
    earliestKnownStreamPos := max k c.earliestKnownStreamPos
    entityToKey := c.entityToKey.popAll r }

def evictLoop : ℕ → Cache E → Cache E × Exit
  | 0, c => if c.maxSize < c.cache.length then (c,.keyError) else (c,.returned)
  | n+1, c =>
    if c.maxSize < c.cache.length then
      match c.cache.popFirst with
      | none => (c,.keyError)
      | some ((k,r),rest) => evictLoop n (forgetFirst c k r rest)
    else (c,.returned)

/-- The loop pops one position a round, so the current number of positions
bounds its rounds; a negative maximum size ends in popping an empty map. -/
def evict (c : Cache E) : Cache E × Exit := evictLoop c.cache.length c

/-- A factor is given by its action on sizes, the floor of a floating-point
product, so no rounding rule is assumed. -/
def setCacheFactor (c : Cache E) (factor : ℤ → ℤ) : Cache E × Exit :=
  if factor c.originalMaxSize ≠ c.maxSize then
    evict { c with maxSize := factor c.originalMaxSize }
  else (c,.returned)

def placed (c : Cache E) (entity : E) (streamPos : ℤ) : Cache E :=
  { c with
    cache := c.cache.set streamPos (((c.cache.get streamPos).getD []).insert entity)
    entityToKey := c.entityToKey.insert entity streamPos }

def dropEntity (cache : SortedDict ℤ (List E)) (oldPos : ℤ) (e : List E) (entity : E) :
    SortedDict ℤ (List E) :=
  if e.erase entity = [] then cache.erase oldPos else cache.set oldPos (e.erase entity)

def entityHasChanged (c : Cache E) (entity : E) (streamPos : ℤ) : Cache E × Exit :=
  if streamPos ≤ c.earliestKnownStreamPos then (c,.returned)
  else match c.entityToKey.lookup entity with
    | none => evict (placed c entity streamPos)
    | some oldPos =>
      if streamPos ≤ oldPos then (c,.returned)
      else match c.cache.get oldPos with
        | none => (c,.keyError)
        | some e =>
          if entity ∈ e then
            evict (placed { c with cache := dropEntity c.cache oldPos e entity } entity streamPos)
          else (c,.keyError)

def hasEntityChanged (c : Cache E) (entity : E) (streamPos : ℤ) : Bool :=
  if streamPos < c.earliestKnownStreamPos then true
  else match c.entityToKey.lookup entity with
    | none => false
    | some latest => streamPos < latest

def getAllEntitiesChanged (c : Cache E) (streamPos : ℤ) : Option (List E) :=
  if streamPos < c.earliestKnownStreamPos then none
  else some ((c.cache.itemsAfter streamPos).flatMap Prod.snd)

def getEntitiesChanged (c : Cache E) (entities : Collection E) (streamPos perfFactor : ℤ) :
    Finset E :=
  match c.cache.peekLast with
  | none => entities.toSet
  | some (maxStreamPos,_) =>
    if streamPos < c.earliestKnownStreamPos then entities.toSet
    else if perfFactor*entities.len < maxStreamPos-streamPos then
      entities.toSet.filter (fun e => streamPos < (c.entityToKey.lookup e).getD (-1))
    else match getAllEntitiesChanged c streamPos, entities with
      | none, _ => entities.toSet
      | some changed, .set s => s ∩ changed.toFinset
      | some changed, .other l =>
        if changed.length < l.length then changed.toFinset ∩ l.toFinset
        else l.toFinset ∩ changed.toFinset

def hasAnyEntityChanged (c : Cache E) (streamPos : ℤ) : Bool :=
  if streamPos < c.earliestKnownStreamPos then true
  else match c.cache.peekLast with
    | none => false
    | some (maxStreamPos,_) => streamPos < maxStreamPos

inductive Call (E : Type*) where
  | entityHasChanged (entity : E) (streamPos : ℤ)
  | setCacheFactor (factor : ℤ → ℤ)

def step (c : Cache E) : Call E → Cache E
  | .entityHasChanged entity streamPos => (entityHasChanged c entity streamPos).1
  | .setCacheFactor factor => (setCacheFactor c factor).1

def run (c : Cache E) (calls : List (Call E)) : Cache E := calls.foldl step c

/-- The constructor: registration applies the configured factor to the empty
cache, then the prefilled positions are recorded. -/
def initialCalls (factor : ℤ → ℤ) (prefilled : List (E × ℤ)) : List (Call E) :=
  .setCacheFactor factor :: prefilled.map (fun ep => .entityHasChanged ep.1 ep.2)

def unfilled (currentStreamPos maxSize : ℤ) : Cache E :=
  { originalMaxSize := maxSize
    maxSize := maxSize
    cache := SortedDict.empty
    entityToKey := ∅
    earliestKnownStreamPos := currentStreamPos }

def create (currentStreamPos maxSize : ℤ) (factor : ℤ → ℤ) (prefilled : List (E × ℤ)) : Cache E :=
  run (unfilled currentStreamPos maxSize) (initialCalls factor prefilled)

def recorded (calls : List (Call E)) : List (E × ℤ) :=
  calls.filterMap (fun call => match call with
    | .entityHasChanged entity streamPos => some (entity,streamPos)
    | .setCacheFactor _ => none)

/-- The two maps are inverse to each other, no position is kept without an
entity, and every kept position is above the known bound. -/
structure Inverse (c : Cache E) : Prop where
  inverse : ∀ e k, c.entityToKey.lookup e = some k ↔ ∃ s, c.cache.get k = some s ∧ e ∈ s
  nonempty : ∀ k s, c.cache.get k = some s → s ≠ []
  nodup : ∀ k s, c.cache.get k = some s → s.Nodup
  above : ∀ k s, c.cache.get k = some s → c.earliestKnownStreamPos < k

def Covers (c : Cache E) (changes : List (E × ℤ)) : Prop :=
  ∀ e p, (e,p) ∈ changes → p ≤ c.earliestKnownStreamPos ∨
    ∃ k, c.entityToKey.lookup e = some k ∧ p ≤ k

variable (c : Cache E)

theorem evictLoop_rule {P : Cache E → Prop}
    (hp : ∀ c k r rs, c.cache.popFirst = some ((k,r),rs) → P c → P (forgetFirst c k r rs)) (n : ℕ)
    (c : Cache E) (h : P c) : P (evictLoop n c).1 := by
  induction n generalizing c with
  | zero =>
    simp only [evictLoop]
    split <;> exact h
  | succ n ih =>
    simp only [evictLoop]
    split
    · split
      · exact h
      · next k r rs hf => exact ih _ (hp c k r rs hf h)
    · exact h

/-- The invariant with one entity taken out of its position. -/
structure Released (c : Cache E) (entity : E) : Prop where
  inverse : ∀ e k, e ≠ entity →
    (c.entityToKey.lookup e = some k ↔ ∃ s, c.cache.get k = some s ∧ e ∈ s)
  absent : ∀ k s, c.cache.get k = some s → entity ∉ s
  nonempty : ∀ k s, c.cache.get k = some s → s ≠ []
  nodup : ∀ k s, c.cache.get k = some s → s.Nodup
  above : ∀ k s, c.cache.get k = some s → c.earliestKnownStreamPos < k

theorem get_dropEntity (ca : SortedDict ℤ (List E)) (op : ℤ) (e : List E) (ent : E) (k : ℤ)
    (s : List E) (h : (dropEntity ca op e ent).get k = some s) :
    (k = op ∧ s = e.erase ent ∧ s ≠ []) ∨ (k ≠ op ∧ ca.get k = some s) := by
  unfold dropEntity at h
  by_cases hk : k = op <;> split at h <;>
    simp only [SortedDict.get_erase,SortedDict.get_set,hk] at h
  · simp at h
  · obtain rfl : e.erase ent = s := by simpa using h
    exact .inl ⟨hk,rfl,by assumption⟩
  · exact .inr ⟨hk,h⟩
  · exact .inr ⟨hk,h⟩

theorem dropEntity_kept (ca : SortedDict ℤ (List E)) (op : ℤ) (e : List E) (ent : E) (k : ℤ)
    (s : List E) (o : E) (hne : o ≠ ent) (ho : ca.get op = some e) (hs : ca.get k = some s)
    (hm : o ∈ s) : ∃ t, (dropEntity ca op e ent).get k = some t ∧ o ∈ t := by
  by_cases hk : k = op
  · subst hk
    obtain rfl : e = s := by simpa [ho] using hs
    have hme : o ∈ e.erase ent := (mem_erase_of_ne hne).mpr hm
    have hn : e.erase ent ≠ [] := ne_nil_of_mem hme
    exact ⟨e.erase ent,by simp [dropEntity,hn,SortedDict.get_set],hme⟩
  · refine ⟨s,?_,hm⟩
    unfold dropEntity
    split <;> simp [SortedDict.get_erase,SortedDict.get_set,hk,hs]

theorem get_placed (ent : E) (sp k : ℤ) :
    (placed c ent sp).cache.get k =
      if k = sp then some (((c.cache.get sp).getD []).insert ent)
      else c.cache.get k :=
  SortedDict.get_set _ _ _ _

theorem lookup_placed (ent e : E) (sp : ℤ) :
    (placed c ent sp).entityToKey.lookup e =
      if e = ent then some sp else c.entityToKey.lookup e :=
  lookup_set _ _ _ _

omit [DecidableEq E] in
theorem mem_getD (k : ℤ) (e : E) :
    e ∈ (c.cache.get k).getD [] ↔ ∃ s, c.cache.get k = some s ∧ e ∈ s := by
  cases c.cache.get k <;> simp

theorem placed_inverse (ent : E) (sp : ℤ) (hr : Released c ent)
    (hp : c.earliestKnownStreamPos < sp) : Inverse (placed c ent sp) := by
  refine ⟨?_,?_,?_,?_⟩
  · intro e k
    simp only [get_placed,lookup_placed]
    by_cases he : e = ent
    · subst he
      by_cases hk : k = sp
      · simp [hk]
      · simp only [if_true,hk,Option.some.injEq,Ne.symm hk,false_iff]
        rintro ⟨s,hs,hm⟩
        exact hr.absent k s hs hm
    · rw [if_neg he,hr.inverse e k he]
      by_cases hk : k = sp
      · subst hk
        simp [he,mem_getD]
      · simp [hk]
  · intro k s hs
    rw [get_placed] at hs
    split at hs
    · cases hs
      exact ne_nil_of_mem (mem_insert_self ..)
    · exact hr.nonempty k s hs
  · intro k s hs
    rw [get_placed] at hs
    split at hs
    · cases hs
      apply List.Nodup.insert
      cases hg : c.cache.get sp with
      | none => simp
      | some t => exact hr.nodup _ t hg
    · exact hr.nodup k s hs
  · intro k s hs
    rw [get_placed] at hs
    split at hs
    · next hk => exact hk ▸ hp
    · exact hr.above k s hs

theorem placed_covers (ent : E) (sp : ℤ) (cs : List (E × ℤ)) (hc : Covers c cs)
    (hle : ∀ k, c.entityToKey.lookup ent = some k → k ≤ sp) :
    Covers (placed c ent sp) (cs ++ [(ent,sp)]) := by
  intro e p hp
  rw [lookup_placed]
  by_cases he : e = ent
  · subst he
    rcases mem_append.mp hp with hp | hp
    · rcases hc e p hp with h | ⟨k,hk,hpk⟩
      · exact .inl h
      · exact .inr ⟨sp,by simp,hpk.trans (hle k hk)⟩
    · have hpe : p = sp := by simpa using hp
      exact .inr ⟨sp,by simp,le_of_eq hpe⟩
  · have hp : (e,p) ∈ cs := by simpa [he] using hp
    rcases hc e p hp with h | ⟨k,hk,hpk⟩
    · exact .inl h
    · exact .inr ⟨k,by simpa [he] using hk,hpk⟩

theorem covers_append (cs : List (E × ℤ)) (ent : E) (sp : ℤ) (hc : Covers c cs)
    (h : sp ≤ c.earliestKnownStreamPos ∨ ∃ k, c.entityToKey.lookup ent = some k ∧ sp ≤ k) :
    Covers c (cs ++ [(ent,sp)]) := by
  intro e p hp
  rcases mem_append.mp hp with hp | hp
  · exact hc e p hp
  · obtain ⟨rfl,rfl⟩ : e = ent ∧ p = sp := by simpa using hp
    exact h

omit [DecidableEq E] in
theorem recorded_cons (cl : Call E) (cs : List (Call E)) :
    recorded (cl::cs) = recorded [cl] ++ recorded cs := by
  cases cl <;> simp [recorded]

theorem unfilled_inverse (cur mx : ℤ) : Inverse (unfilled cur mx : Cache E) := by
  constructor <;> simp [unfilled]

theorem covered_lookup (cs : List (E × ℤ)) (hc : Covers c cs) (e : E) (p q : ℤ)
    (hp : (e,p) ∈ cs) (hq : q < p) (hk : ¬ q < c.earliestKnownStreamPos) :
    ∃ k, c.entityToKey.lookup e = some k ∧ q < k := by
  rcases hc e p hp with h | ⟨k,hl,hpk⟩
  · omega
  · exact ⟨k,hl,by omega⟩

theorem hasEntityChanged_iff (e : E) (q : ℤ) (hk : ¬ q < c.earliestKnownStreamPos) :
    hasEntityChanged c e q = true ↔ ∃ k, c.entityToKey.lookup e = some k ∧ q < k := by
  rw [hasEntityChanged,if_neg hk]
  cases c.entityToKey.lookup e <;> simp

theorem hasEntityChanged_of_covers (cs : List (E × ℤ)) (hc : Covers c cs) (e : E)
    (p q : ℤ) (hp : (e,p) ∈ cs) (hq : q < p) : hasEntityChanged c e q = true := by
  by_cases hk : q < c.earliestKnownStreamPos
  · simp [hasEntityChanged,hk]
  · exact (hasEntityChanged_iff c e q hk).mpr (covered_lookup c cs hc e p q hp hq hk)

section

variable (hi : Inverse c)
include hi

theorem forgetFirst_inverse (k : ℤ) (r : List E) (rs : SortedDict ℤ (List E))
    (h : c.cache.popFirst = some ((k,r),rs)) : Inverse (forgetFirst c k r rs) := by
  obtain ⟨hk,hr,hlt⟩ := SortedDict.popFirst_get c.cache rs k r h
  have ho : ∀ l s, rs.get l = some s → c.cache.get l = some s := by
    intro l s hl
    have hne : l ≠ k := ne_of_gt (hlt l s hl)
    simpa [hr,hne] using hl
  refine ⟨?_,fun l s hl => hi.nonempty l s (ho l s hl),fun l s hl => hi.nodup l s (ho l s hl),?_⟩
  · intro e l
    simp only [forgetFirst,lookup_popAll]
    split
    · next he =>
      constructor
      · intro hf
        simp at hf
      · rintro ⟨s,hs,hm⟩
        have h1 := (hi.inverse e k).mpr ⟨r,hk,he⟩
        have h2 := (hi.inverse e l).mpr ⟨s,ho l s hs,hm⟩
        have hkl : k = l := by simpa [h1] using h2
        exact absurd hkl (ne_of_lt (hlt l s hs))
    · next he =>
      rw [hi.inverse]
      constructor
      · rintro ⟨s,hs,hm⟩
        have hne : l ≠ k := by
          rintro rfl
          have hrs : r = s := by simpa [hk] using hs
          exact he (hrs ▸ hm)
        exact ⟨s,by simpa [hr,hne] using hs,hm⟩
      · rintro ⟨s,hs,hm⟩
        exact ⟨s,ho l s hs,hm⟩
  · intro l s hl
    exact max_lt (hlt l s hl) (hi.above l s (ho l s hl))

theorem forgetFirst_covers (cs : List (E × ℤ)) (hc : Covers c cs)
    (k : ℤ) (r : List E) (rs : SortedDict ℤ (List E)) (h : c.cache.popFirst = some ((k,r),rs)) :
    Covers (forgetFirst c k r rs) cs := by
  obtain ⟨hk,-,-⟩ := SortedDict.popFirst_get c.cache rs k r h
  intro e p hp
  simp only [forgetFirst,lookup_popAll]
  rcases hc e p hp with hle | ⟨l,hl,hpl⟩
  · exact .inl (hle.trans (le_max_right _ _))
  · by_cases he : e ∈ r
    · have hkl := (hi.inverse e k).mpr ⟨r,hk,he⟩
      have : l = k := by simpa [hl] using hkl
      exact .inl (by omega)
    · exact .inr ⟨l,by simpa [he] using hl,hpl⟩

theorem unknown_released (ent : E)
    (h : c.entityToKey.lookup ent = none) : Released c ent := by
  refine ⟨fun e k _ => hi.inverse e k,?_,hi.nonempty,hi.nodup,hi.above⟩
  intro k s hs hm
  have hk := (hi.inverse ent k).mpr ⟨s,hs,hm⟩
  simp [h] at hk

theorem dropEntity_released (ent : E) (op : ℤ) (e : List E)
    (hp : c.entityToKey.lookup ent = some op) (he : c.cache.get op = some e) :
    Released { c with cache := dropEntity c.cache op e ent } ent := by
  have hc := get_dropEntity c.cache op e ent
  refine ⟨?_,?_,?_,?_,?_⟩
  · intro o k hne
    rw [hi.inverse]
    constructor
    · rintro ⟨s,hs,hm⟩
      exact dropEntity_kept c.cache op e ent k s o hne he hs hm
    · rintro ⟨s,hs,hm⟩
      rcases hc k s hs with ⟨rfl,rfl,-⟩ | ⟨-,hs⟩
      · exact ⟨e,he,mem_of_mem_erase hm⟩
      · exact ⟨s,hs,hm⟩
  · intro k s hs hm
    rcases hc k s hs with ⟨rfl,rfl,-⟩ | ⟨hk,hs⟩
    · exact (hi.nodup _ e he).not_mem_erase hm
    · have h2 := (hi.inverse ent k).mpr ⟨s,hs,hm⟩
      exact hk (by simpa [hp] using h2.symm)
  · intro k s hs
    rcases hc k s hs with ⟨-,-,h⟩ | ⟨-,hs⟩
    · exact h
    · exact hi.nonempty k s hs
  · intro k s hs
    rcases hc k s hs with ⟨rfl,rfl,-⟩ | ⟨-,hs⟩
    · exact (hi.nodup _ e he).erase ent
    · exact hi.nodup k s hs
  · intro k s hs
    rcases hc k s hs with ⟨rfl,-,-⟩ | ⟨-,hs⟩
    · exact hi.above _ e he
    · exact hi.above k s hs

theorem mem_getAllEntitiesChanged (q : ℤ)
    (hk : ¬ q < c.earliestKnownStreamPos) : ∃ l, getAllEntitiesChanged c q = some l ∧
      ∀ e, e ∈ l ↔ ∃ k, c.entityToKey.lookup e = some k ∧ q < k := by
  refine ⟨_,if_neg hk,fun e => ?_⟩
  simp only [mem_flatMap,SortedDict.mem_itemsAfter,hi.inverse,SortedDict.get_eq_some]
  constructor
  · rintro ⟨⟨k,s⟩,⟨hs,hq⟩,hm⟩
    exact ⟨k,⟨s,hs,hm⟩,hq⟩
  · rintro ⟨k,⟨s,hs,hm⟩,hq⟩
    exact ⟨(k,s),⟨hs,hq⟩,hm⟩

theorem peekLast_of_lookup (e : E) (k : ℤ)
    (hk : c.entityToKey.lookup e = some k) : ∃ la, c.cache.peekLast = some la ∧ k ≤ la.1 := by
  obtain ⟨s,hs,hm⟩ := (hi.inverse e k).mp hk
  cases hl : c.cache.peekLast with
  | none => simp [SortedDict.peekLast_none c.cache hl] at hs
  | some la => exact ⟨la,rfl,SortedDict.le_peekLast c.cache k s la hl hs⟩

theorem mem_getEntitiesChanged (e : E) (q perfFactor : ℤ)
    (entities : Collection E) (hk : ¬ q < c.earliestKnownStreamPos) (hne : c.cache.peekLast ≠ none)
    (hq : 0 ≤ q ∨ c.entityToKey.lookup e ≠ none) :
    e ∈ getEntitiesChanged c entities q perfFactor ↔
      e ∈ entities.toSet ∧ ∃ k, c.entityToKey.lookup e = some k ∧ q < k := by
  obtain ⟨la,hla⟩ := Option.ne_none_iff_exists'.mp hne
  obtain ⟨chd,ha,hm⟩ := mem_getAllEntitiesChanged c hi q hk
  simp only [getEntitiesChanged,hla,if_neg hk,ha]
  split
  · rw [Finset.mem_filter]
    refine and_congr_right (fun _ => ?_)
    cases hl : c.entityToKey.lookup e with
    | none =>
      simp [hl] at hq ⊢
      omega
    | some k => simp
  · cases entities with
    | set s => simp [hm,Collection.toSet]
    | other l =>
      dsimp only
      split
      · simp [hm,Collection.toSet,and_comm]
      · simp [hm,Collection.toSet]

end

theorem evict_keeps (cs : List (E × ℤ)) (hi : Inverse c) (hc : Covers c cs) :
    Inverse (evict c).1 ∧ Covers (evict c).1 cs :=
  evictLoop_rule (P := fun c => Inverse c ∧ Covers c cs) (fun c k r rs hf h =>
    ⟨forgetFirst_inverse c h.1 k r rs hf,forgetFirst_covers c h.1 cs h.2 k r rs hf⟩) _ c ⟨hi,hc⟩

theorem setCacheFactor_keeps (fa : ℤ → ℤ) (cs : List (E × ℤ)) (hi : Inverse c)
    (hc : Covers c cs) : Inverse (setCacheFactor c fa).1 ∧ Covers (setCacheFactor c fa).1 cs := by
  unfold setCacheFactor
  split
  · exact evict_keeps _ cs ⟨hi.inverse,hi.nonempty,hi.nodup,hi.above⟩ hc
  · exact ⟨hi,hc⟩

theorem entityHasChanged_keeps (ent : E) (sp : ℤ) (cs : List (E × ℤ)) (hi : Inverse c)
    (hc : Covers c cs) :
    Inverse (entityHasChanged c ent sp).1 ∧
      Covers (entityHasChanged c ent sp).1 (cs ++ [(ent,sp)]) := by
  unfold entityHasChanged
  split
  · next h => exact ⟨hi,covers_append c cs ent sp hc (.inl h)⟩
  · next h =>
    have hlt := not_le.mp h
    split
    · next hn =>
      exact evict_keeps _ _ (placed_inverse c ent sp (unknown_released c hi ent hn) hlt)
        (placed_covers c ent sp cs hc (by simp [hn]))
    · next op ho =>
      obtain ⟨e,he,hm⟩ := (hi.inverse ent op).mp ho
      split
      · next hle => exact ⟨hi,covers_append c cs ent sp hc (.inr ⟨op,ho,hle⟩)⟩
      · next hle =>
        simp only [he,hm]
        have hr := dropEntity_released c hi ent op e ho he
        refine evict_keeps _ _ (placed_inverse _ ent sp hr hlt) (placed_covers _ ent sp cs hc ?_)
        intro k hk
        have hko : op = k := by simpa [ho] using hk
        omega

theorem step_keeps (cl : Call E) (cs : List (E × ℤ)) (hi : Inverse c)
    (hc : Covers c cs) : Inverse (step c cl) ∧ Covers (step c cl) (cs ++ recorded [cl]) := by
  cases cl with
  | entityHasChanged ent sp =>
    exact entityHasChanged_keeps c ent sp cs hi hc
  | setCacheFactor fa =>
    simpa [step,recorded] using setCacheFactor_keeps c fa cs hi hc

theorem run_keeps (calls : List (Call E)) (c : Cache E) (cs : List (E × ℤ)) (hi : Inverse c)
    (hc : Covers c cs) : Inverse (run c calls) ∧ Covers (run c calls) (cs ++ recorded calls) := by
  induction calls generalizing c cs with
  | nil => simpa [run,recorded] using And.intro hi hc
  | cons cl calls ih =>
    obtain ⟨hi',hc'⟩ := step_keeps c cl cs hi hc
    have h := ih (step c cl) (cs ++ recorded [cl]) hi' hc'
    rw [recorded_cons,← append_assoc]
    exact h

theorem reachable_keeps (cur mx : ℤ) (fa : ℤ → ℤ) (pf : List (E × ℤ)) (cs : List (Call E)) :
    Inverse (run (create cur mx fa pf) cs) ∧ Covers (run (create cur mx fa pf) cs)
        (pf ++ recorded cs) := by
  have hp : recorded (initialCalls fa pf) = pf := by
    simp [recorded,initialCalls]
  obtain ⟨hi,hc⟩ := run_keeps (initialCalls fa pf)
    (unfilled cur mx) [] (unfilled_inverse _ _) (by simp [Covers])
  rw [hp] at hc
  exact run_keeps cs _ _ hi hc

/-- No change is missed: after any calls, an entity recorded as changed above
the queried position is reported by all four queries, unless the listing says
that it does not know. The two maps stay inverse in every reachable state. -/
theorem changes_never_missed (currentStreamPos maxSize : ℤ) (factor : ℤ → ℤ)
    (prefilled : List (E × ℤ)) (calls : List (Call E)) :
    let c := run (create currentStreamPos maxSize factor prefilled) calls
    (∀ (e : E) (p q : ℤ), (e,p) ∈ prefilled ++ recorded calls → q < p →
      hasEntityChanged c e q = true ∧
      (∀ (entities : Collection E) (perfFactor : ℤ), e ∈ entities.toSet →
        e ∈ getEntitiesChanged c entities q perfFactor) ∧ hasAnyEntityChanged c q = true ∧
      (getAllEntitiesChanged c q = none ∨ ∃ l, getAllEntitiesChanged c q = some l ∧ e ∈ l)) ∧
    Inverse c := by
  intro c
  obtain ⟨hi,hc⟩ := reachable_keeps currentStreamPos maxSize factor prefilled calls
  refine ⟨?_,hi⟩
  intro e p q hp hq
  refine ⟨hasEntityChanged_of_covers c _ hc e p q hp hq,?_⟩
  by_cases hknown : q < c.earliestKnownStreamPos
  · refine ⟨?_,by simp [hasAnyEntityChanged,hknown],.inl (by simp [getAllEntitiesChanged,hknown])⟩
    intro entities perfFactor he
    unfold getEntitiesChanged
    split
    · exact he
    · rw [if_pos hknown]
      exact he
  · obtain ⟨k,hl,hqk⟩ := covered_lookup c _ hc e p q hp hq hknown
    obtain ⟨la,hla,hle⟩ := peekLast_of_lookup c hi e k hl
    refine ⟨?_,?_,?_⟩
    · intro entities perfFactor he
      exact (mem_getEntitiesChanged c hi e q perfFactor entities hknown (by simp [hla])
        (.inr (by simp [hl]))).mpr ⟨he,k,hl,hqk⟩
    · simp [hasAnyEntityChanged,hknown,hla,lt_of_lt_of_le hqk hle]
    · obtain ⟨l,hall,hmem⟩ := mem_getAllEntitiesChanged c hi q hknown
      exact .inr ⟨l,hall,(hmem e).mpr ⟨k,hl,hqk⟩⟩

theorem changes_never_missed_after_eviction :
    hasEntityChanged (run (create 1 2 id [("user@foo.com",2)])
      [.entityHasChanged "bar@baz.net" 3,.entityHasChanged "user@elsewhere.org" 4,
        .setCacheFactor (fun n => n/2)]) "user@foo.com" 1 = true :=
  ((changes_never_missed 1 2 id [("user@foo.com",2)]
    [.entityHasChanged "bar@baz.net" 3,.entityHasChanged "user@elsewhere.org" 4,
      .setCacheFactor (fun n => n/2)]).1 "user@foo.com" 2 1 (by simp) (by decide)).1

/-- Whichever way is the fastest, what is returned are the entities that have changed. -/
theorem getEntitiesChanged_exact (currentStreamPos maxSize : ℤ) (factor : ℤ → ℤ)
    (prefilled : List (E × ℤ)) (calls : List (Call E)) (entities : Collection E)
    (streamPos perfFactor : ℤ) (c : Cache E)
    (hc : c = run (create currentStreamPos maxSize factor prefilled) calls)
    (hne : c.cache.peekLast ≠ none) (hpos : 0 ≤ streamPos)
    (hknown : c.earliestKnownStreamPos ≤ streamPos) :
    getEntitiesChanged c entities streamPos perfFactor =
      entities.toSet.filter (fun e => hasEntityChanged c e streamPos) := by
  have hi : Inverse c := hc ▸ (reachable_keeps currentStreamPos maxSize factor prefilled calls).1
  ext e
  rw [mem_getEntitiesChanged c hi e streamPos perfFactor entities (not_lt.mpr hknown) hne
    (.inl hpos),
    Finset.mem_filter,hasEntityChanged_iff c e streamPos (not_lt.mpr hknown)]

theorem getEntitiesChanged_exact_set :
    getEntitiesChanged (run (create 1 2 id [("a",2)]) [.entityHasChanged "b" 3])
      (.set {"a","b"}) 2 1 =
      {"b"} :=
  (getEntitiesChanged_exact 1 2 id [("a",2)] [.entityHasChanged "b" 3] (.set {"a","b"}) 2 1 _ rfl
    (by decide) (by decide) (by decide)).trans (by decide)

end Synapse.StreamChangeCache
