import Synapse.Dict
import Synapse.Python

/-!
# Loops with an allowance

A `while` loop is given a number of iterations it may take. A run returns,
raises or exceeds the allowance. Two runs are alike when both raise or both
return related values.
-/

set_option autoImplicit false

namespace Synapse.Loops
open Python List Dict Except

inductive Stop (E : Type) where
  | raised (error : E)
  | outOfFuel

abbrev Run (E : Type) (α : Type) := Except (Stop E) α

section Runs

variable {E α β γ δ : Type}

def lift : Except E α → Run E α
  | .ok a => .ok a
  | .error e => .error (.raised e)

def Alike (R : α → β → Prop) : Run E α → Run E β → Prop
  | .ok a, .ok b => R a b
  | .error (.raised _), .error (.raised _) => True
  | _, _ => False

variable {xs : List α} {x : Run E α} {R : α → β → Prop} {g : α → Except E β} {y : Run E β}
  {S : γ → δ → Prop} {f : α → Run E γ}

theorem Alike.bind_ok {g : β → Run E δ} (h : Alike R x y)
    (hfg : ∀ a b, x = .ok a → y = .ok b → R a b → Alike S (f a) (g b)) :
    Alike S (x >>= f) (y >>= g) := by
  match x, y, h with
  | .ok a, .ok b, h => exact hfg a b rfl rfl h
  | .error (.raised _), .error (.raised _), _ => trivial

theorem Alike.bind {g : β → Run E δ} (h : Alike R x y) (hfg : ∀ a b, R a b → Alike S (f a) (g b)) :
    Alike S (x >>= f) (y >>= g) :=
  h.bind_ok (fun a b _ _ => hfg a b)

def Ends (x : Run E α) : Prop := x ≠ .error .outOfFuel

theorem ends_ok (a : α) : Ends (.ok a : Run E α) := nofun

theorem ends_raised (e : E) : Ends (.error (.raised e) : Run E α) := nofun

theorem ends_lift (x : Except E α) : Ends (lift x) := by
  cases x with
  | ok a => exact ends_ok a
  | error e => exact ends_raised e

theorem Ends.bind {f : α → Run E β} (h : Ends x) (hf : ∀ a, x = .ok a → Ends (f a)) :
    Ends (x >>= f) := by
  match x, h with
  | .ok a, _ => exact hf a rfl
  | .error (.raised e), _ => exact ends_raised e

theorem Ends.alike_bind {g : α → Run E δ}
    (h : Ends x) (hfg : ∀ a, x = .ok a → Alike S (f a) (g a)) : Alike S (x >>= f) (x >>= g) := by
  match x, h with
  | .ok a, _ => exact hfg a rfl
  | .error (.raised e), _ => trivial

theorem Ends.alike (h : Ends x) : Alike Eq x x := by
  match x, h with
  | .ok a, _ => exact rfl
  | .error (.raised e), _ => trivial

theorem Alike.ends (h : Alike R x y) : Ends x ∧ Ends y := by
  match x, y, h with
  | .ok a, .ok b, _ => exact ⟨ends_ok a,ends_ok b⟩
  | .error (.raised e), .error (.raised e'), _ => exact ⟨ends_raised e,ends_raised e'⟩

theorem alike_error {e e' : Stop E} (h : Ends (.error e : Run E α))
    (h' : Ends (.error e' : Run E β)) : Alike R (.error e : Run E α) (.error e' : Run E β) := by
  match e, e', h, h' with
  | .raised _, .raised _, _, _ => trivial
  | .outOfFuel, _, h, _ => exact absurd rfl h
  | .raised _, .outOfFuel, _, h' => exact absurd rfl h'

theorem forEach_error {f : α → Run E Unit} {e : Stop E} (h : forEach f xs = .error e) :
    ∃ x ∈ xs, f x = .error e := by
  induction xs with
  | nil => simp [forEach] at h
  | cons x xs ih =>
    rw [forEach] at h
    rcases bind_eq_error.mp h with hx | ⟨u,hx,h⟩
    · exact ⟨x,by simp,hx⟩
    · obtain ⟨y,hy,hfy⟩ := ih h
      exact ⟨y,by simp [hy],hfy⟩

theorem forEach_alike {f : α → Run E Unit} {ys : List α} (hm : ∀ x, x ∈ xs ↔ x ∈ ys)
    (hf : ∀ x ∈ xs, Ends (f x)) : Alike (fun _ _ => True) (forEach f xs) (forEach f ys) := by
  cases hx : forEach f xs with
  | ok u =>
    have ha := forEach_eq_ok.mp hx
    rw [forEach_eq_ok.mpr (fun y hy => ha y ((hm y).mpr hy))]
    trivial
  | error e =>
    obtain ⟨x,hxm,hfx⟩ := forEach_error hx
    cases hy : forEach f ys with
    | ok u =>
      have := forEach_eq_ok.mp hy x ((hm x).mp hxm)
      simp [hfx] at this
    | error e' =>
      obtain ⟨y,hym,hfy⟩ := forEach_error hy
      exact alike_error (hfx ▸ hf x hxm) (hfy ▸ hf y ((hm y).mpr hym))

theorem foldlM_alike {R : γ → δ → Prop} {f : γ → α → Run E γ} {g : δ → α → Run E δ}
    (hs : ∀ x ∈ xs, ∀ c d, R c d → Alike R (f c x) (g d x)) {c : γ} {d : δ} (h : R c d) :
    Alike R (xs.foldlM f c) (xs.foldlM g d) := by
  induction xs generalizing c d with
  | nil => exact h
  | cons x xs ih =>
    refine (hs x (by simp) c d h).bind ?_
    intro c d h
    exact ih (fun y hy => hs y (by simp [hy])) h

theorem foldlM_ends {f : γ → α → Run E γ} (hs : ∀ x ∈ xs, ∀ c, Ends (f c x)) (c : γ) :
    Ends (xs.foldlM f c) := by
  have hsa : Alike Eq (xs.foldlM f c) (xs.foldlM f c) := by
    apply foldlM_alike _ rfl
    rintro x hx c _ rfl
    exact (hs x hx c).alike
  exact hsa.ends.1

theorem mapM_ok {bs : List β} (h : xs.mapM g = .ok bs) (b : β) :
    b ∈ bs ↔ ∃ x ∈ xs, g x = .ok b := by
  induction xs generalizing bs with
  | nil =>
    cases h
    simp
  | cons x xs ih =>
    rw [mapM_cons] at h
    obtain ⟨b',hb',h⟩ := bind_eq_ok.mp h
    obtain ⟨bs',hbs',h⟩ := bind_eq_ok.mp h
    cases h
    rw [mem_cons,ih hbs']
    simp [hb',eq_comm]

theorem mapM_error {e : E} (h : xs.mapM g = .error e) : ∃ x ∈ xs, g x = .error e := by
  induction xs with
  | nil => cases h
  | cons x xs ih =>
    rw [mapM_cons] at h
    rcases bind_eq_error.mp h with hx | ⟨b,hx,h⟩
    · exact ⟨x,by simp,hx⟩
    · rcases bind_eq_error.mp h with hxs | ⟨bs,hxs,h⟩
      · obtain ⟨y,hy,hgy⟩ := ih hxs
        exact ⟨y,by simp [hy],hgy⟩
      · cases h

theorem mapM_isOk {bs : List β} (h : xs.mapM g = .ok bs) {x : α} (hx : x ∈ xs) :
    ∃ b, g x = .ok b := by
  induction xs generalizing bs with
  | nil => cases hx
  | cons y xs ih =>
    rw [mapM_cons] at h
    obtain ⟨b',hb',h⟩ := bind_eq_ok.mp h
    obtain ⟨bs',hbs',h⟩ := bind_eq_ok.mp h
    rcases mem_cons.mp hx with rfl | hx
    · exact ⟨b',hb'⟩
    · exact ih hbs' hx

theorem mapM_alike {ys : List α} (hm : ∀ x, x ∈ xs ↔ x ∈ ys) :
    Alike (fun bs bs' => ∀ b, b ∈ bs ↔ b ∈ bs') (lift (xs.mapM g)) (lift (ys.mapM g)) := by
  cases hx : xs.mapM g with
  | ok bs =>
    cases hy : ys.mapM g with
    | ok bs' =>
      intro b
      rw [mapM_ok hx,mapM_ok hy]
      simp only [hm]
    | error e =>
      obtain ⟨y,hym,hgy⟩ := mapM_error hy
      obtain ⟨b,hb⟩ := mapM_isOk hx ((hm y).mpr hym)
      rw [hb] at hgy
      cases hgy
  | error e =>
    cases hy : ys.mapM g with
    | ok bs' =>
      obtain ⟨x,hxm,hgx⟩ := mapM_error hx
      obtain ⟨b,hb⟩ := mapM_isOk hy ((hm x).mp hxm)
      rw [hb] at hgx
      cases hgx
    | error e' => trivial

theorem foldlM_eq_mapM {f : γ → α → Run E γ} (step : γ → β → γ)
    (hf : ∀ c x, f c x = lift (g x) >>= fun b => .ok (step c b)) (xs : List α) (c : γ) :
    xs.foldlM f c = lift (xs.mapM g) >>= fun bs => .ok (bs.foldl step c) := by
  induction xs generalizing c with
  | nil => rfl
  | cons x xs ih =>
    rw [foldlM_cons,mapM_cons,hf]
    cases hx : g x with
    | error e => rfl
    | ok b =>
      change xs.foldlM f (step c b) = _
      rw [ih]
      cases xs.mapM g <;> rfl

end Runs

section Allowances

variable {E α β σ : Type}

def Eventually (f : ℕ → Run E α) (a : α) : Prop := ∃ n, ∀ fuel, n ≤ fuel → f fuel = .ok a

theorem eventually_ok (a : α) : Eventually (fun _ => (.ok a : Run E α)) a := ⟨0,fun _ _ => rfl⟩

theorem Eventually.bind {f : ℕ → Run E α} {g : ℕ → α → Run E β} {a : α} {b : β}
    (hf : Eventually f a) (hg : Eventually (fun fuel => g fuel a) b) :
    Eventually (fun fuel => f fuel >>= g fuel) b := by
  obtain ⟨n,hn⟩ := hf
  obtain ⟨m,hm⟩ := hg
  refine ⟨max n m,?_⟩
  intro fuel hfu
  simp only [hn fuel (le_trans (le_max_left n m) hfu)]
  exact hm fuel (le_trans (le_max_right n m) hfu)

theorem eventually_foldlM {f : ℕ → σ → α → Run E σ} {P : σ → Prop} {xs : List α}
    (hst : ∀ x ∈ xs, ∀ s, P s → ∃ s', Eventually (fun fuel => f fuel s x) s' ∧ P s') {s : σ}
    (hs : P s) : ∃ s', Eventually (fun fuel => xs.foldlM (f fuel) s) s' ∧ P s' := by
  induction xs generalizing s with
  | nil => exact ⟨s,eventually_ok s,hs⟩
  | cons x xs ih =>
    obtain ⟨s₁,h₁,hs₁⟩ := hst x (by simp) s hs
    obtain ⟨s₂,h₂,hs₂⟩ := ih (fun y hy => hst y (by simp [hy])) hs₁
    refine ⟨s₂,?_,hs₂⟩
    exact h₁.bind h₂

end Allowances

section Assignments

variable {E K V : Type} [DecidableEq K]

def SameLookups (d d' : Dict K V) : Prop := ∀ key, d.lookup key = d'.lookup key

variable {d d' : Dict K V} {f : K → Run E (Option V)} {keys : List K}

theorem SameLookups.symm (h : SameLookups d d') : SameLookups d' d :=
  fun key => (h key).symm

theorem SameLookups.trans {d'' : Dict K V} (h : SameLookups d d') (h' : SameLookups d' d'') :
    SameLookups d d'' :=
  fun key => (h key).trans (h' key)

def assign (d : Dict K V) (key : K) : Option V → Dict K V
  | some v => d.insert key v
  | none => d

theorem lookup_assign (d : Dict K V) (key l : K) (va : Option V) :
    (assign d key va).lookup l = if l = key then va.or (d.lookup l) else d.lookup l := by
  cases va with
  | none => simp [assign]
  | some v => simp [assign,lookup_set]

section

variable (h : SameLookups d d')
include h

theorem SameLookups.mapValues {W : Type} (f : V → W) :
    SameLookups (mapValues d f) (mapValues d' f) := by
  intro key
  rw [lookup_mapValues,lookup_mapValues,h key]

theorem SameLookups.update {e e' : Dict K V} (he : SameLookups e e') :
    SameLookups (update d e) (update d' e') := by
  intro key
  rw [lookup_update,lookup_update,h key,he key]

theorem SameLookups.insert (key : K) (v : V) : SameLookups (d.insert key v) (d'.insert key v) := by
  intro l
  rw [lookup_set,lookup_set,h l]

theorem SameLookups.mem (key : K) : key ∈ d ↔ key ∈ d' := by
  rw [← AList.lookup_isSome,← AList.lookup_isSome,h key]

end

theorem lookup_foldl_assign (f : K → Option V) (keys : List K) (d : Dict K V) (l : K) :
    (keys.foldl (fun d key => assign d key (f key)) d).lookup l =
      if l ∈ keys then (f l).or (d.lookup l) else d.lookup l :=
  read_foldl (r := AList.lookup l) (fun d => by simp [lookup_assign])
    (fun d k hk => by simp [lookup_assign,hk]) (or_or (f l)) keys d

/-- `d[key] = f(key)` for each key in turn, where nothing is assigned for
`none`. -/
def assignEach (f : K → Run E (Option V)) : Dict K V → List K → Run E (Dict K V)
  | d, [] => .ok d
  | d, key::keys => f key >>= fun value => assignEach f (assign d key value) keys

theorem assignEach_ok (h : assignEach f d keys = .ok d') :
    (∀ key ∈ keys, ∃ v, f key = .ok v ∧ d'.lookup key = v.or (d.lookup key)) ∧
      ∀ key, key ∉ keys → d'.lookup key = d.lookup key := by
  induction keys generalizing d with
  | nil =>
    cases h
    simp
  | cons first keys ih =>
    obtain ⟨v,hv,h⟩ := bind_eq_ok.mp h
    obtain ⟨hin,ho⟩ := ih h
    simp only [lookup_assign] at hin ho
    constructor
    · intro key hm
      by_cases hk : key = first
      · subst hk
        refine ⟨v,hv,?_⟩
        by_cases hmem : key ∈ keys
        · obtain ⟨v',hv',hl⟩ := hin key hmem
          obtain rfl := ok.inj (hv.symm.trans hv')
          rw [hl,if_pos rfl]
          cases v <;> rfl
        · rw [ho key hmem,if_pos rfl]
      · obtain ⟨v',hv',hl⟩ := hin key ((mem_cons.mp hm).resolve_left hk)
        rw [if_neg hk] at hl
        exact ⟨v',hv',hl⟩
    · intro key hm
      rw [mem_cons,not_or] at hm
      rw [ho key hm.2,if_neg hm.1]

theorem assignEach_error {e : Stop E} (h : assignEach f d keys = .error e) :
    ∃ key ∈ keys, f key = .error e := by
  induction keys generalizing d with
  | nil => simp [assignEach] at h
  | cons first keys ih =>
    rw [assignEach] at h
    rcases bind_eq_error.mp h with hf | ⟨v,hf,h⟩
    · exact ⟨first,by simp,hf⟩
    · obtain ⟨key,hm,hk⟩ := ih h
      exact ⟨key,by simp [hm],hk⟩

theorem assignEach_alike {g : K → Run E (Option V)} {ks' : List K}
    (hmem : ∀ key, key ∈ keys ↔ key ∈ ks') (hd : SameLookups d d')
    (hfg : ∀ key ∈ keys, Alike Eq (f key) (g key)) :
    Alike SameLookups (assignEach f d keys) (assignEach g d' ks') := by
  cases hx : assignEach f d keys with
  | ok m =>
    obtain ⟨hin,ho⟩ := assignEach_ok hx
    cases hy : assignEach g d' ks' with
    | ok m' =>
      obtain ⟨hin',ho'⟩ := assignEach_ok hy
      intro key
      by_cases hk : key ∈ keys
      · obtain ⟨v,hf,hl⟩ := hin key hk
        obtain ⟨v',hg,hl'⟩ := hin' key ((hmem key).mp hk)
        have hs := hfg key hk
        rw [hf,hg] at hs
        obtain rfl : v = v' := hs
        rw [hl,hl',hd key]
      · rw [ho key hk,ho' key (fun h => hk ((hmem key).mpr h)),hd key]
    | error e =>
      obtain ⟨key,hm,hg⟩ := assignEach_error hy
      obtain ⟨v,hf,-⟩ := hin key ((hmem key).mpr hm)
      have hs := hfg key ((hmem key).mpr hm)
      rw [hf,hg] at hs
      exact hs.elim
  | error e =>
    obtain ⟨key,hm,hf⟩ := assignEach_error hx
    have hs := hfg key hm
    rw [hf] at hs
    cases hy : assignEach g d' ks' with
    | ok m' =>
      obtain ⟨v,hg,-⟩ := (assignEach_ok hy).1 key ((hmem key).mp hm)
      rw [hg] at hs
      cases e <;> exact hs.elim
    | error e' =>
      obtain ⟨key',hm',hg'⟩ := assignEach_error hy
      have hs' := hfg key' ((hmem key').mpr hm')
      rw [hg'] at hs'
      apply alike_error
      · rintro ⟨⟩
        exact hs.ends.1 rfl
      · rintro ⟨⟩
        exact hs'.ends.2 rfl

end Assignments

end Synapse.Loops
