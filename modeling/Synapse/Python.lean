import Mathlib

/-!
# Python values

JSON documents as Python sees them, with the built-in operations that can
raise: conversion to an integer, iteration, membership and indexing. A
dictionary is an association list read through its first entry for a key.
-/

set_option autoImplicit false

namespace Synapse.Python

/-- A built-in exception, or one of the program's own. -/
inductive Exn (E : Type) where
  | typeError
  | valueError
  | keyError
  | attributeError
  | indexError
  | overflowError
  | assertionError
  | runtimeError (msg : String)
  | integrityError
  | exception (msg : String)
  | raised (error : E)
  deriving DecidableEq

abbrev Py (E : Type) (α : Type) := Except (Exn E) α

section Guards

variable {ε E : Type} {α β : Type}

instance (x : Py E Unit) : Decidable (x = .ok ()) :=
  match x with
  | .ok () => isTrue rfl
  | .error _ => isFalse (by simp)

def raiseIf (p : Prop) [Decidable p] (error : Exn E) : Py E Unit :=
  if p then .error error else .ok ()

@[simp] theorem ok_bind (a : α) (f : α → Except ε β) : ((.ok a : Except ε α) >>= f) = f a := rfl

@[simp] theorem error_bind (e : ε) (f : α → Except ε β) :
    ((.error e : Except ε α) >>= f) = .error e := rfl

variable {x : Except ε α} {f g : α → Except ε β} {b : β}

theorem bind_eq_ok : (x >>= f) = .ok b ↔ ∃ a, x = .ok a ∧ f a = .ok b := by
  cases x with
  | error e => simp
  | ok a => simp

theorem bind_eq_error {e : ε} :
    (x >>= f) = .error e ↔ x = .error e ∨ ∃ a, x = .ok a ∧ f a = .error e := by
  cases x with
  | error e' => simp
  | ok a => simp

theorem toOption_eq_some {a : α} : x.toOption = some a ↔ x = .ok a := by
  cases x with
  | error e => simp [Except.toOption]
  | ok a' => simp [Except.toOption]

theorem eq_ok_getD (h : x.toOption.isSome) (d : α) : x = .ok (x.toOption.getD d) := by
  obtain ⟨a,ha⟩ := Option.isSome_iff_exists.mp h
  rw [ha]
  exact toOption_eq_some.mp ha

theorem bind_eq_ok_congr (h : ∀ a, f a = .ok b ↔ g a = .ok b) :
    (x >>= f) = .ok b ↔ (x >>= g) = .ok b := by
  simp only [bind_eq_ok,h]

theorem raiseIf_eq_ok {p : Prop} [Decidable p] {error : Exn E} {u : Unit} :
    raiseIf p error = .ok u ↔ ¬ p := by
  by_cases h : p <;> simp [raiseIf]

def forEach (f : α → Except ε Unit) : List α → Except ε Unit
  | [] => .ok ()
  | x::xs => f x >>= fun _ => forEach f xs

theorem forEach_eq_ok {f : α → Except ε Unit} {xs : List α} :
    forEach f xs = .ok () ↔ ∀ x ∈ xs, f x = .ok () := by
  induction xs with
  | nil => simp [forEach]
  | cons x xs ih =>
    rw [forEach,bind_eq_ok,List.forall_mem_cons,← ih]
    constructor
    · rintro ⟨⟨⟩,hx,hxs⟩
      exact ⟨hx,hxs⟩
    · rintro ⟨hx,hxs⟩
      exact ⟨(),hx,hxs⟩

/-- `try` around a conversion: any exception becomes the given one. -/
def orRaise (x : Py E α) (error : Exn E) : Py E α :=
  match x with
  | .ok a => .ok a
  | .error _ => .error error

end Guards

inductive PyFloat where
  | finite (value : ℚ)
  | infinite (negative : Bool)
  deriving DecidableEq

inductive Json where
  | null
  | bool (value : Bool)
  | int (value : ℤ)
  | float (value : PyFloat)
  | str (value : String)
  | array (values : List Json)
  | object (fields : List (String × Json))

abbrev JsonDict := List (String × Json)

namespace Json

variable {E : Type}

/-- `type(v) is int`, which is false of booleans. -/
def isInt : Json → Bool
  | .int _ => true
  | _ => false

def isStr (v : Json) (s : String) : Bool :=
  match v with
  | .str t => t = s
  | _ => false

def hashable : Json → Bool
  | .array _ => false
  | .object _ => false
  | _ => true

def number : Json → Option PyFloat
  | .bool b => some (.finite (if b then 1 else 0))
  | .int n => some (.finite n)
  | .float x => some x
  | _ => none

/-- Equality of a hashable value with any other: numbers by value, across
booleans, integers and floats. -/
def same (a b : Json) : Bool :=
  match a, b with
  | .null, .null => true
  | .str s, .str t => s = t
  | a, b =>
    match a.number, b.number with
    | some x, some y => x = y
    | _, _ => false

/-- `int(v)`. Strings are read by Python's own parser. -/
def toInt (parse : String → Option ℤ) : Json → Py E ℤ
  | .bool b => .ok (if b then 1 else 0)
  | .int n => .ok n
  | .float (.finite q) => .ok (q.num.tdiv q.den)
  | .float (.infinite _) => .error .overflowError
  | .str s =>
    match parse s with
    | some n => .ok n
    | none => .error .valueError
  | .null => .error .typeError
  | .array _ => .error .typeError
  | .object _ => .error .typeError

/-- `d.get(key, default)` of a dictionary. -/
def getD (d : JsonDict) (key : String) (default : Json) : Json := (d.lookup key).getD default

/-- `default if v is None else v`. -/
def orElse (v default : Json) : Json :=
  match v with
  | .null => default
  | v => v

/-- `v.get(key, default)` of any value. -/
def get (v : Json) (key : String) (default : Json) : Py E Json :=
  match v with
  | .object d => .ok (getD d key default)
  | _ => .error .attributeError

/-- `d[key]` of a dictionary. -/
def item (d : JsonDict) (key : String) : Py E Json :=
  match d.lookup key with
  | some v => .ok v
  | none => .error .keyError

def items : Json → Py E JsonDict
  | .object d => .ok d
  | _ => .error .attributeError

/-- `list(v)`: the keys of a dictionary, the elements of a list, the characters
of a string. -/
def iter : Json → Py E (List Json)
  | .object d => .ok (d.map (fun p => .str p.1))
  | .array xs => .ok xs
  | .str s => .ok (s.toList.map (fun c => .str (String.singleton c)))
  | _ => .error .typeError

def addNew (kept : List Json) (x : Json) : List Json :=
  if kept.any (same x) then kept else kept ++ [x]

/-- `set(xs)`: of equal elements the first is kept. -/
def toSet (xs : List Json) : Py E (List Json) :=
  if xs.all hashable then .ok (xs.foldl addNew []) else .error .typeError

/-- `key in v` for a hashable key. -/
def contains (v key : Json) : Py E Bool :=
  match v, key with
  | .object d, .str s => .ok (d.lookup s).isSome
  | .object _, _ => .ok false
  | .array xs, key => .ok (xs.any (same key))
  | .str s, .str t => .ok (decide (t.toList <:+: s.toList))
  | _, _ => .error .typeError

def position (length : ℕ) (n : ℤ) : Option ℕ :=
  if 0 ≤ n ∧ n < length then some n.toNat
  else if n < 0 ∧ 0 ≤ length+n then some (length+n).toNat
  else none

def index (v key : Json) : Py E Json :=
  let element (xs : List Json) (n : ℤ) : Py E Json :=
    match (position xs.length n).bind (fun i => xs[i]?) with
    | some x => .ok x
    | none => .error .indexError
  match v, key with
  | .object d, .str s => item d s
  | .object _, _ => .error .keyError
  | .array xs, .int n => element xs n
  | .array xs, .bool b => element xs (if b then 1 else 0)
  | _, _ => .error .typeError

theorem str_mem_addNew {kept : List Json} {x : Json} {name : String}
    (h : Json.str name ∈ kept ∨ x = .str name) : Json.str name ∈ addNew kept x := by
  unfold addNew
  split
  · next ha =>
    rcases h with h | rfl
    · exact h
    · obtain ⟨y,hy,hs⟩ := List.any_eq_true.mp ha
      cases y <;> simp [same,number] at hs
      exact hs ▸ hy
  · rcases h with h | rfl
    · simp [h]
    · simp

theorem str_mem_foldl {xs kept : List Json} {name : String}
    (h : Json.str name ∈ kept ∨ Json.str name ∈ xs) : Json.str name ∈ xs.foldl addNew kept := by
  induction xs generalizing kept with
  | nil => simpa using h
  | cons x xs ih =>
    apply ih
    rcases h with h | h
    · exact .inl (str_mem_addNew (.inl h))
    · rcases List.mem_cons.mp h with hx | h
      · exact .inl (str_mem_addNew (.inr hx.symm))
      · exact .inr h

theorem str_mem_toSet {xs names : List Json} {name : String}
    (h : (toSet xs : Py E (List Json)) = .ok names) (hm : Json.str name ∈ xs) :
    Json.str name ∈ names := by
  unfold toSet at h
  split at h
  · cases h
    exact str_mem_foldl (.inr hm)
  · simp at h

end Json

end Synapse.Python
