import Synapse.Python

/-!
# Texts of Python values

Integers in decimal, words with spaces between them, and JSON texts as the
standard library writes and reads them. What is written is read back.
-/

set_option autoImplicit false

namespace Synapse.PythonText
open Python List Option Nat

/-- `str(n)` -/
def decimal : ℤ → List Char
  | .ofNat n => Nat.toDigits 10 n
  | .negSucc n => '-'::Nat.toDigits 10 (n+1)

/-- Digits, with single underscores between them. -/
def naturalOfText (cs : List Char) : Option ℕ :=
  if (cs.splitOn '_').all (fun group => !group.isEmpty && group.all Char.isDigit) then
    some (Nat.ofDigitChars 10 (cs.filter (· ≠ '_')) 0)
  else none

def strip (cs : List Char) : List Char :=
  ((cs.dropWhile Char.isWhitespace).reverse.dropWhile Char.isWhitespace).reverse

/-- `int(s)` of an ASCII text. -/
def intOfText (cs : List Char) : Option ℤ :=
  match strip cs with
  | '-'::cs => (naturalOfText cs).map (fun n : ℕ => -(n : ℤ))
  | '+'::cs => (naturalOfText cs).map Nat.cast
  | cs => (naturalOfText cs).map Nat.cast

/-- `s.split(" ", limit)` -/
def splitAtMost : ℕ → List Char → List (List Char)
  | 0, cs => [cs]
  | limit+1, cs =>
    match cs.dropWhile (· ≠ ' ') with
    | [] => [cs]
    | _::rest => cs.takeWhile (· ≠ ' ')::splitAtMost limit rest

/-- `s.split(" ")` -/
def split (cs : List Char) : List (List Char) := splitAtMost cs.length cs

/-- `" ".join(words)` -/
def join (words : List (List Char)) : List Char := List.intercalate [' '] words

theorem splitAtMost_cons (lim : ℕ) {word : List Char} (h : ' ' ∉ word) (rs : List Char) :
    splitAtMost (lim+1) (word ++ ' '::rs) = word::splitAtMost lim rs := by
  have hw : ∀ c ∈ word, decide (c ≠ ' ') = true := by
    intro c hc
    exact decide_eq_true (fun heq => h (heq ▸ hc))
  have hd : (word ++ ' '::rs).dropWhile (· ≠ ' ') = ' '::rs := by
    rw [dropWhile_append_of_pos hw]
    rfl
  have ht : (word ++ ' '::rs).takeWhile (· ≠ ' ') = word := by
    rw [takeWhile_append_of_pos hw,takeWhile_cons_of_neg (by decide),append_nil]
  rw [splitAtMost,hd,ht]

theorem splitAtMost_word (lim : ℕ) {word : List Char} (h : ' ' ∉ word) :
    splitAtMost lim word = [word] := by
  cases lim with
  | zero => rfl
  | succ lim =>
    have hd : word.dropWhile (· ≠ ' ') = [] := by
      rw [dropWhile_eq_nil_iff]
      intro c hc
      exact decide_eq_true (fun heq => h (heq ▸ hc))
    rw [splitAtMost,hd]

theorem splitAtMost_join {words : List (List Char)} (h : ∀ word ∈ words, ' ' ∉ word)
    (la : List Char) : splitAtMost words.length (join (words ++ [la])) = words ++ [la] := by
  induction words with
  | nil => simp [splitAtMost,join]
  | cons word words ih =>
    have hj : join (word::words ++ [la]) = word ++ ' '::join (words ++ [la]) := by
      cases words <;> simp [join]
    rw [hj,length_cons,splitAtMost_cons _ (h word mem_cons_self),
      ih (fun w hw => h w (mem_cons_of_mem _ hw)),cons_append]

def whole : List Char → Option (List Char × List Char)
  | [] => none
  | c::cs =>
    if c = '0' then some (['0'],cs)
    else if c.isDigit then some (c::cs.takeWhile Char.isDigit,cs.dropWhile Char.isDigit)
    else none

def digitsAfter (mark cs : List Char) : Option (List Char × List Char) :=
  match cs with
  | [] => none
  | c::_ =>
    if c.isDigit then some (mark ++ cs.takeWhile Char.isDigit,cs.dropWhile Char.isDigit) else none

def fraction : List Char → List Char × List Char
  | [] => ([],[])
  | c::cs => if c = '.' then (digitsAfter ['.'] cs).getD ([],c::cs) else ([],c::cs)

def exponent : List Char → List Char × List Char
  | [] => ([],[])
  | c::cs =>
    if c = 'e' ∨ c = 'E' then
      match cs with
      | [] => ([],[c])
      | d::ds =>
        if d = '-' ∨ d = '+' then (digitsAfter [c,d] ds).getD ([],c::d::ds)
        else (digitsAfter [c] (d::ds)).getD ([],c::d::ds)
    else ([],c::cs)

def minus : List Char → List Char × List Char
  | [] => ([],[])
  | c::cs => if c = '-' then (['-'],cs) else ([],c::cs)

/-- The text of a number, whether it is one of a float, and what follows. -/
def numeral (cs : List Char) : Option (List Char × Bool × List Char) :=
  match whole (minus cs).2 with
  | none => none
  | some (digits,rest) =>
    let marks := (fraction rest).1 ++ (exponent (fraction rest).2).1
    some ((minus cs).1 ++ digits ++ marks,!marks.isEmpty,(exponent (fraction rest).2).2)

/-- How floats are written and read: `float.__repr__` and `float`. -/
structure FloatFormat where
  IsDouble : ℚ → Prop
  repr : ℚ → List Char
  parse : List Char → PyFloat
  numeral_repr : ∀ q, IsDouble q → numeral (repr q) = some (repr q,true,[])
  parse_repr : ∀ q, IsDouble q → parse (repr q) = .finite q

def hex4 (n : ℕ) : List Char :=
  [(n/4096%16).digitChar,(n/256%16).digitChar,(n/16%16).digitChar,(n%16).digitChar]

def hexValue (c : Char) : Option ℕ :=
  if c.isDigit then some (c.toNat-48)
  else if 'a' ≤ c ∧ c ≤ 'f' then some (c.toNat-87)
  else if 'A' ≤ c ∧ c ≤ 'F' then some (c.toNat-55)
  else none

def codeUnit : List Char → Option (ℕ × List Char)
  | a::b::c::d::cs => do
    let a ← hexValue a
    let b ← hexValue b
    let c ← hexValue c
    let d ← hexValue d
    some (a*4096+b*256+c*16+d,cs)
  | _ => none

def shortEscapes : List (Char × Char) :=
  [('"','"'),('\\','\\'),('\n','n'),('\r','r'),('\t','t'),(Char.ofNat 12,'f'),(Char.ofNat 8,'b')]

def escape (c : Char) : List Char :=
  match shortEscapes.find? (fun p => p.1 = c) with
  | some p => ['\\',p.2]
  | none =>
    if ' ' ≤ c ∧ c ≤ '~' then [c]
    else if c.toNat < 0x10000 then '\\' :: 'u' :: hex4 c.toNat
    else '\\' :: 'u' :: hex4 (0xd800+(c.toNat-0x10000)/1024) ++
      '\\' :: 'u' :: hex4 (0xdc00+(c.toNat-0x10000)%1024)

def quote (cs : List Char) : List Char := '"'::cs.flatMap escape ++ ['"']

/-- The character that a letter stands for. A solidus may be escaped too. -/
def unescape (letter : Char) : Option Char :=
  if letter = '/' then some '/'
  else (shortEscapes.find? (fun p => p.2 = letter)).map Prod.fst

def lowSurrogate (high : ℕ) : List Char → Option (Char × List Char)
  | '\\' :: 'u' :: cs => do
    let (low,cs) ← codeUnit cs
    if 0xdc00 ≤ low ∧ low < 0xe000 then
      some (Char.ofNat (0x10000+(high-0xd800)*1024+(low-0xdc00)),cs)
    else none
  | _ => none

/-- The first character of a string. A surrogate that is not one of a pair is no
character, and is refused. -/
def scanChar : List Char → Option (Char × List Char)
  | [] => none
  | c::cs =>
    if c = '\\' then
      match cs with
      | [] => none
      | letter::cs =>
        if letter = 'u' then do
          let (unit,cs) ← codeUnit cs
          if 0xd800 ≤ unit ∧ unit < 0xdc00 then lowSurrogate unit cs
          else if 0xdc00 ≤ unit ∧ unit < 0xe000 then none
          else some (Char.ofNat unit,cs)
        else do
          let c ← unescape letter
          some (c,cs)
    else if c < ' ' then none
    else some (c,cs)

def scanString : ℕ → List Char → Option (List Char × List Char)
  | 0, _ => none
  | fuel+1, cs =>
    if cs.head? = some '"' then some ([],cs.tail)
    else do
      let (c,cs) ← scanChar cs
      let (s,cs) ← scanString fuel cs
      some (c::s,cs)

section Values

def isSpace (c : Char) : Bool := c = ' ' || c = '\t' || c = '\n' || c = '\r'

def skip (cs : List Char) : List Char := cs.dropWhile isSpace

/-- `d[key] = value`: a key keeps its place. -/
def setItem (d : JsonDict) (field : String × Json) : JsonDict :=
  if d.any (fun p => p.1 = field.1) then d.map (fun p => if p.1 = field.1 then field else p)
  else d ++ [field]

def toDict (fields : JsonDict) : JsonDict := fields.foldl setItem []

def literals : List (List Char × Json) :=
  [(['n','u','l','l'],.null),(['t','r','u','e'],.bool true),(['f','a','l','s','e'],.bool false)]

def scanLiteral (cs : List Char) : Option (Json × List Char) :=
  (literals.find? (fun p => p.1.isPrefixOf cs)).map (fun p => (p.2,cs.drop p.1.length))

variable (fmt : FloatFormat)

def scanNumber (cs : List Char) : Option (Json × List Char) := do
  let (text,isFloat,cs) ← numeral cs
  if isFloat then some (.float (fmt.parse text),cs)
  else do
    let n ← intOfText text
    some (.int n,cs)

mutual

def scanValue : ℕ → List Char → Option (Json × List Char)
  | 0, _ => none
  | _, [] => none
  | fuel+1, c::cs =>
    if c = '"' then do
      let (s,cs) ← scanString (cs.length+1) cs
      some (.str (String.ofList s),cs)
    else if c = '[' then
      if (skip cs).head? = some ']' then some (.array [],(skip cs).tail)
      else do
        let (values,cs) ← scanElements fuel (skip cs)
        some (.array values,cs)
    else if c = '{' then
      if (skip cs).head? = some '}' then some (.object [],(skip cs).tail)
      else do
        let (fields,cs) ← scanMembers fuel (skip cs)
        some (.object (toDict fields),cs)
    else (scanLiteral (c::cs)).orElse (fun _ => scanNumber fmt (c::cs))

def scanElements : ℕ → List Char → Option (List Json × List Char)
  | 0, _ => none
  | fuel+1, cs => do
    let (value,cs) ← scanValue fuel cs
    match skip cs with
    | [] => none
    | c::cs =>
      if c = ']' then some ([value],cs)
      else if c = ',' then do
        let (values,cs) ← scanElements fuel (skip cs)
        some (value::values,cs)
      else none

def scanMembers : ℕ → List Char → Option (JsonDict × List Char)
  | 0, _ => none
  | _, [] => none
  | fuel+1, q::cs =>
    if q ≠ '"' then none
    else do
      let (key,cs) ← scanString (cs.length+1) cs
      match skip cs with
      | [] => none
      | c::cs =>
        if c ≠ ':' then none
        else do
          let (value,cs) ← scanValue fuel (skip cs)
          match skip cs with
          | [] => none
          | c::cs =>
            if c = '}' then some ([(String.ofList key,value)],cs)
            else if c = ',' then do
              let (fields,cs) ← scanMembers fuel (skip cs)
              some ((String.ofList key,value)::fields,cs)
            else none

end

/-- `JSONDecoder.decode`. -/
def decode {E : Type} (s : String) : Py E Json :=
  match scanValue fmt (2*s.length+1) (skip s.toList) with
  | some (value,cs) => if skip cs = [] then .ok value else .error .valueError
  | none => .error .valueError

mutual

/-- Infinities are refused. -/
def encodable : Json → Bool
  | .float (.infinite _) => false
  | .array values => allEncodable values
  | .object fields => fieldsEncodable fields
  | _ => true

def allEncodable : List Json → Bool
  | [] => true
  | value::values => encodable value && allEncodable values

def fieldsEncodable : JsonDict → Bool
  | [] => true
  | (_,value)::fields => encodable value && fieldsEncodable fields

end

mutual

def text : Json → List Char
  | .null => ['n','u','l','l']
  | .bool true => ['t','r','u','e']
  | .bool false => ['f','a','l','s','e']
  | .int n => decimal n
  | .float (.finite q) => fmt.repr q
  | .float (.infinite _) => []
  | .str s => quote s.toList
  | .array values => '['::List.intercalate [','] (texts values) ++ [']']
  | .object fields => '{'::List.intercalate [','] (fieldTexts fields) ++ ['}']

def texts : List Json → List (List Char)
  | [] => []
  | value::values => text value::texts values

def fieldTexts : JsonDict → List (List Char)
  | [] => []
  | (key,value)::fields => (quote key.toList ++ ':'::text value)::fieldTexts fields

end

/-- `JSONEncoder.encode`, with no space after the separators. -/
def encode {E : Type} (value : Json) : Py E String :=
  if encodable value then .ok (String.ofList (text fmt value)) else .error .valueError

mutual

/-- The values of Python: floats are doubles, and the keys of a dictionary differ. -/
def Representable : Json → Prop
  | .float (.finite q) => fmt.IsDouble q
  | .float (.infinite _) => False
  | .array values => AllRepresentable values
  | .object fields => (fields.map Prod.fst).Nodup ∧ FieldsRepresentable fields
  | _ => True

def AllRepresentable : List Json → Prop
  | [] => True
  | value::values => Representable value ∧ AllRepresentable values

def FieldsRepresentable : JsonDict → Prop
  | [] => True
  | (_,value)::fields => Representable value ∧ FieldsRepresentable fields

end

end Values

theorem intercalate_cons_cons (c : Char) (x y : List Char) (zs : List (List Char)) :
    intercalate [c] (x::y::zs) = x ++ c::intercalate [c] (y::zs) := by
  simp [intercalate]

variable {cs : List Char} {c : Char}

theorem isDigit_ne {d : Char} (h : c.isDigit = true) (hd : d.isDigit = false) : c ≠ d := by
  rintro rfl
  rw [h] at hd
  cases hd

theorem isDigit_not_isWhitespace (h : c.isDigit = true) : c.isWhitespace = false := by
  simp only [Char.isWhitespace,Bool.or_eq_false_iff,decide_eq_false_iff_not]
  refine ⟨⟨⟨?_,?_⟩,?_⟩,?_⟩ <;> exact isDigit_ne h (by decide)

theorem strip_eq (h : ∀ c ∈ cs, c.isWhitespace = false) : strip cs = cs := by
  have hd : ∀ xs : List Char, (∀ c ∈ xs, c.isWhitespace = false) →
      xs.dropWhile Char.isWhitespace = xs := by
    intro xs hxs
    cases xs with
    | nil => rfl
    | cons x xs => rw [dropWhile_cons_of_neg (by simp [hxs x mem_cons_self])]
  rw [strip,hd cs h,hd _ (by simpa using h),reverse_reverse]

theorem naturalOfText_toDigits (n : ℕ) : naturalOfText (toDigits 10 n) = some n := by
  have hd : ∀ c ∈ toDigits 10 n, c.isDigit = true :=
    fun c hc => isDigit_of_mem_toDigits (by omega) (by omega) hc
  have hs : (toDigits 10 n).splitOn '_' = [toDigits 10 n] := by
    apply splitOnP_eq_singleton
    intro c hc
    simpa using isDigit_ne (hd c hc) (by decide : '_'.isDigit = false)
  have hf : (toDigits 10 n).filter (· ≠ '_') = toDigits 10 n := by
    rw [filter_eq_self]
    intro c hc
    simpa using isDigit_ne (hd c hc) (by decide : '_'.isDigit = false)
  rw [naturalOfText,hs,hf,if_pos,ofDigitChars_ten_toDigits]
  simp only [all_cons,all_nil,Bool.and_true,Bool.and_eq_true,List.all_eq_true]
  exact ⟨by simp,hd⟩

theorem toDigits_cons (n : ℕ) : ∃ c cs, toDigits 10 n = c::cs ∧ c.isDigit = true := by
  cases h : toDigits 10 n with
  | nil => exact absurd h toDigits_ne_nil
  | cons c cs =>
    refine ⟨c,cs,rfl,isDigit_of_mem_toDigits (b := 10) (n := n) (by omega) (by omega) ?_⟩
    rw [h]
    exact mem_cons_self

theorem intOfText_decimal (n : ℤ) : intOfText (decimal n) = some n := by
  have hs : ∀ n : ℕ, ∀ c ∈ toDigits 10 n, c.isWhitespace = false := fun n c hc =>
    isDigit_not_isWhitespace (isDigit_of_mem_toDigits (by omega) (by omega) hc)
  cases n with
  | ofNat n =>
    rw [intOfText,decimal,strip_eq (hs n)]
    obtain ⟨c,cs,heq,hc⟩ := toDigits_cons n
    have hn := naturalOfText_toDigits n
    rw [heq] at hn ⊢
    split
    · rename_i heq'
      exact absurd (cons.inj heq').1 (isDigit_ne hc (by decide))
    · rename_i heq'
      exact absurd (cons.inj heq').1 (isDigit_ne hc (by decide))
    · rw [hn]
      rfl
  | negSucc n =>
    have hst : strip ('-'::toDigits 10 (n+1)) = '-'::toDigits 10 (n+1) := by
      exact strip_eq (forall_mem_cons.mpr ⟨rfl,hs _⟩)
    rw [intOfText,decimal,hst]
    show (naturalOfText (toDigits 10 (n+1))).map _ = _
    rw [naturalOfText_toDigits]
    rfl

theorem naturalOfText_chars {n : ℕ} (h : naturalOfText cs = some n) :
    ∀ c ∈ cs, c.isDigit = true ∨ c = '_' := by
  intro c hc
  rw [naturalOfText] at h
  split at h
  · rename_i ha
    have hcs : intercalate ['_'] (cs.splitOn '_') = cs := intercalate_splitOn '_'
    rw [← hcs] at hc
    have hj : ∀ gs : List (List Char), (∀ gp ∈ gs, ∀ c ∈ gp, c.isDigit = true) →
        c ∈ intercalate ['_'] gs → c.isDigit = true ∨ c = '_' := by
      intro gs hgp hm
      induction gs with
      | nil => simp at hm
      | cons gp gs ih =>
        have hgr := hgp gp mem_cons_self c
        cases gs with
        | nil => exact .inl (hgr (by simpa using hm))
        | cons next gs =>
          rw [intercalate_cons_cons,mem_append,mem_cons] at hm
          rcases hm with hm | hm | hm
          · exact .inl (hgr hm)
          · exact .inr hm
          · exact ih (fun g hg => hgp g (mem_cons_of_mem _ hg)) hm
    simp only [List.all_eq_true,Bool.and_eq_true] at ha
    exact hj _ (fun gp hgr => (ha gp hgr).2) hc
  · cases h

theorem mem_strip (h : c ∈ cs) (hc : c.isWhitespace = false) : c ∈ strip cs := by
  have hd : ∀ xs : List Char, c ∈ xs → c ∈ xs.dropWhile Char.isWhitespace := by
    intro xs hxs
    induction xs with
    | nil => exact hxs
    | cons x xs ih =>
      by_cases hx : x.isWhitespace = true
      · rw [dropWhile_cons_of_pos hx]
        rcases mem_cons.mp hxs with rfl | hxs
        · rw [hx] at hc
          cases hc
        · exact ih hxs
      · rw [dropWhile_cons_of_neg hx]
        exact hxs
  rw [strip,mem_reverse]
  apply hd
  rw [mem_reverse]
  exact hd cs h

theorem intOfText_chars {n : ℤ} (h : intOfText cs = some n) :
    ∀ c ∈ cs, c.isWhitespace = true ∨ c.isDigit = true ∨ c = '_' ∨ c = '-' ∨ c = '+' := by
  intro c hc
  by_cases hs : c.isWhitespace = true
  · exact .inl hs
  · right
    have hmem := mem_strip hc (by simpa using hs)
    have hn : ∀ {cs : List Char} {f : ℕ → ℤ}, (naturalOfText cs).map f = some n →
        c ∈ cs → c.isDigit = true ∨ c = '_' ∨ c = '-' ∨ c = '+' := by
      intro cs f hmap hc
      obtain ⟨m,hm,-⟩ := map_eq_some_iff.mp hmap
      rcases naturalOfText_chars hm c hc with hd | rfl
      · exact .inl hd
      · exact .inr (.inl rfl)
    rw [intOfText] at h
    split at h
    · rename_i heq
      rw [heq] at hmem
      rcases mem_cons.mp hmem with rfl | hmem
      · simp
      · exact hn h hmem
    · rename_i heq
      rw [heq] at hmem
      rcases mem_cons.mp hmem with rfl | hmem
      · simp
      · exact hn h hmem
    · exact hn h hmem

section Numerals

variable {cs rest : List Char}

def Ends (rest : List Char) : Prop := ∀ c ∈ rest.head?, c = ',' ∨ c = ']' ∨ c = '}'

theorem Ends.head {c : Char} (h : Ends (c::rest)) {p : Char → Prop} (hp : p ',' ∧ p ']' ∧ p '}') :
    p c := by
  rcases h c rfl with rfl | rfl | rfl
  · exact hp.1
  · exact hp.2.1
  · exact hp.2.2

theorem takeWhile_isDigit_append (cs : List Char) (h : Ends rest) :
    (cs ++ rest).takeWhile Char.isDigit = cs.takeWhile Char.isDigit ∧
      (cs ++ rest).dropWhile Char.isDigit = cs.dropWhile Char.isDigit ++ rest := by
  induction cs with
  | nil =>
    cases rest with
    | nil => exact ⟨rfl,rfl⟩
    | cons c rest =>
      have hc : c.isDigit = false := h.head (p := fun c => c.isDigit = false) (by decide)
      simp [hc]
  | cons c cs ih =>
    by_cases hc : c.isDigit = true
    · simpa [hc] using ih
    · simp [hc]

theorem whole_append (h : Ends rest) {r : List Char × List Char} (hcs : whole cs = some r) :
    whole (cs ++ rest) = some (r.1,r.2 ++ rest) := by
  cases cs with
  | nil => cases hcs
  | cons c cs =>
    obtain ⟨ht,hd⟩ := takeWhile_isDigit_append cs h
    simp only [whole,cons_append] at hcs ⊢
    rw [ht,hd]
    split at hcs
    · rw [if_pos ‹_›]
      cases hcs
      rfl
    · rw [if_neg ‹_›]
      split at hcs
      · rw [if_pos ‹_›]
        cases hcs
        rfl
      · cases hcs

theorem digitsAfter_append (mark cs : List Char) (h : Ends rest) :
    digitsAfter mark (cs ++ rest) = (digitsAfter mark cs).map (fun r => (r.1,r.2 ++ rest)) := by
  cases cs with
  | nil =>
    cases rest with
    | nil => rfl
    | cons c rest =>
      have hc : c.isDigit = false := h.head (p := fun c => c.isDigit = false) (by decide)
      simp [digitsAfter,hc]
  | cons c cs =>
    obtain ⟨ht,hd⟩ := takeWhile_isDigit_append (c::cs) h
    rw [cons_append] at ht hd
    by_cases hc : c.isDigit = true
    · simp [digitsAfter,ht,hd]
    · simp [digitsAfter,hc]

theorem fraction_append (h : Ends rest) :
    fraction (cs ++ rest) = ((fraction cs).1,(fraction cs).2 ++ rest) := by
  cases cs with
  | nil =>
    cases rest with
    | nil => rfl
    | cons c rest =>
      have hc : c ≠ '.' := h.head (p := (· ≠ '.')) (by decide)
      simp [fraction,hc]
  | cons c cs =>
    simp only [fraction,cons_append]
    split
    · rw [digitsAfter_append _ _ h]
      cases digitsAfter ['.'] cs <;> rfl
    · rfl

theorem exponent_append (h : Ends rest) :
    exponent (cs ++ rest) = ((exponent cs).1,(exponent cs).2 ++ rest) := by
  match cs with
  | [] =>
    cases rest with
    | nil => rfl
    | cons c rest =>
      have hc : ¬(c = 'e' ∨ c = 'E') := h.head (p := fun c => ¬(c = 'e' ∨ c = 'E')) (by decide)
      simp [exponent,hc]
  | [c] =>
    simp only [exponent,cons_append]
    split
    · cases rest with
      | nil => rfl
      | cons d rest =>
        have hd : ¬(d = '-' ∨ d = '+') := h.head (p := fun c => ¬(c = '-' ∨ c = '+')) (by decide)
        have hdi : d.isDigit = false := h.head (p := fun c => c.isDigit = false) (by decide)
        simp [hd,digitsAfter,hdi]
    · rfl
  | c::d::ds =>
    simp only [exponent,cons_append]
    split
    · split
      · rw [digitsAfter_append _ _ h]
        cases digitsAfter [c,d] ds <;> rfl
      · have ha := digitsAfter_append [c] (d::ds) h
        rw [cons_append] at ha
        rw [ha]
        cases digitsAfter [c] (d::ds) <;> rfl
    · rfl

theorem numeral_append (h : Ends rest) {digits : List Char} {isFloat : Bool}
    (hcs : numeral cs = some (digits,isFloat,[])) :
    numeral (cs ++ rest) = some (digits,isFloat,rest) := by
  have hm : minus (cs ++ rest) = ((minus cs).1,(minus cs).2 ++ rest) := by
    cases cs with
    | nil => cases hcs
    | cons c cs =>
      simp only [minus,cons_append]
      split <;> rfl
  rw [numeral] at hcs ⊢
  rw [hm]
  cases hw : whole (minus cs).2 with
  | none => simp [hw] at hcs
  | some r =>
    rw [hw] at hcs
    rw [whole_append h hw]
    simp only [fraction_append h,exponent_append h]
    simp only [some.injEq,Prod.mk.injEq] at hcs ⊢
    refine ⟨hcs.1,hcs.2.1,?_⟩
    rw [hcs.2.2,nil_append]

theorem toDigits_head (n : ℕ) : ∀ c cs, toDigits 10 n = c::cs → c = '0' → cs = [] := by
  induction n using Nat.strong_induction_on with
  | _ n ih =>
    intro c cs heq hc
    rw [toDigits_eq_if (by omega)] at heq
    split at heq
    · cases heq
      rfl
    · obtain ⟨d,ds,hd,-⟩ := toDigits_cons (n/10)
      rw [hd] at heq
      obtain ⟨rfl,hcs⟩ := cons.inj heq
      have hn : ds = [] := ih (n/10) (by omega) _ _ hd hc
      rw [hn,hc] at hd
      have hz : n/10 = 0 := by
        have hv := naturalOfText_toDigits (n/10)
        rw [hd] at hv
        exact (some.inj hv).symm
      omega

theorem whole_toDigits (n : ℕ) : whole (toDigits 10 n) = some (toDigits 10 n,[]) := by
  obtain ⟨c,cs,heq,hc⟩ := toDigits_cons n
  have hdi : ∀ d ∈ cs, d.isDigit = true := by
    intro d hd
    apply isDigit_of_mem_toDigits (b := 10) (n := n) (by omega) (by omega)
    rw [heq]
    exact mem_cons_of_mem _ hd
  rw [heq,whole]
  split
  · rename_i hz
    rw [toDigits_head n c cs heq hz,hz]
  · rw [takeWhile_eq_self_iff.mpr hdi,dropWhile_eq_nil_iff.mpr hdi]

theorem numeral_decimal (n : ℤ) : numeral (decimal n) = some (decimal n,false,[]) := by
  cases n with
  | ofNat n =>
    have hm : minus (toDigits 10 n) = ([],toDigits 10 n) := by
      obtain ⟨c,cs,heq,hc⟩ := toDigits_cons n
      rw [heq,minus,if_neg (isDigit_ne hc (by decide))]
    simp [numeral,decimal,hm,whole_toDigits,fraction,exponent]
  | negSucc n => simp [numeral,decimal,minus,whole_toDigits,fraction,exponent]

end Numerals

theorem hexValue_digitChar {d : ℕ} (h : d < 16) : hexValue d.digitChar = some d := by
  revert d
  decide

theorem codeUnit_hex4 {n : ℕ} (h : n < 65536) (rs : List Char) :
    codeUnit (hex4 n ++ rs) = some (n,rs) := by
  have hm : ∀ m : ℕ, hexValue (m%16).digitChar = some (m%16) :=
    fun m => hexValue_digitChar (mod_lt _ (by omega))
  simp only [hex4,cons_append,nil_append,codeUnit,hm,bind_eq_bind,
    bind_some,some.injEq,Prod.mk.injEq,and_true]
  omega

theorem toNat_not_surrogate (c : Char) :
    c.toNat < 0x110000 ∧ (c.toNat < 0xd800 ∨ 0xe000 ≤ c.toNat) := by
  rcases c.valid with h | ⟨h,h'⟩
  · change c.toNat < 0xd800 at h
    omega
  · change 0xdfff < c.toNat at h
    change c.toNat < 0x110000 at h'
    omega

theorem scanChar_escape (c : Char) (rest : List Char) :
    (escape c ++ rest).head? ≠ some '"' ∧ scanChar (escape c ++ rest) = some (c,rest) := by
  unfold escape
  split
  · rename_i p hs
    have hall : ∀ p ∈ shortEscapes, p.2 ≠ 'u' ∧ unescape p.2 = some p.1 := by decide
    obtain ⟨hu,hun⟩ := hall p (mem_of_find?_eq_some hs)
    have hc : p.1 = c := by simpa using find?_some hs
    simp [scanChar,hu,hun,hc]
  · rename_i hs
    have hn : ∀ p ∈ shortEscapes, p.1 ≠ c := by simpa using hs
    have hq : c ≠ '"' := (hn ('"','"') (by decide)).symm
    have hb : c ≠ '\\' := (hn ('\\','\\') (by decide)).symm
    obtain ⟨hbo,hsu⟩ := toNat_not_surrogate c
    split
    · rename_i hp
      refine ⟨by simpa using hq,?_⟩
      simp [scanChar,hb,hp.1]
    · split
      · rename_i hsm
        refine ⟨by simp,?_⟩
        simp only [cons_append,scanChar,if_true,codeUnit_hex4 hsm,bind_eq_bind,bind_some]
        rw [if_neg (by omega),if_neg (by omega),Char.ofNat_toNat]
      · refine ⟨by simp,?_⟩
        simp only [cons_append,append_assoc,scanChar,if_true,bind_eq_bind]
        rw [codeUnit_hex4 (by omega),bind_some,if_pos (by omega)]
        simp only [lowSurrogate,bind_eq_bind]
        rw [codeUnit_hex4 (by omega),bind_some,if_pos (by omega)]
        have hco : 0x10000+(0xd800+(c.toNat-0x10000)/1024-0xd800)*1024+
            (0xdc00+(c.toNat-0x10000)%1024-0xdc00) = c.toNat := by omega
        rw [hco,Char.ofNat_toNat]

theorem scanString_flatMap (s rest : List Char) {fuel : ℕ} (h : s.length < fuel) :
    scanString fuel (s.flatMap escape ++ '"'::rest) = some (s,rest) := by
  induction s generalizing fuel with
  | nil =>
    obtain ⟨fuel,rfl⟩ := exists_eq_succ_of_ne_zero (by omega : fuel ≠ 0)
    rfl
  | cons c s ih =>
    obtain ⟨fuel,rfl⟩ := exists_eq_succ_of_ne_zero (by omega : fuel ≠ 0)
    rw [flatMap_cons,append_assoc]
    obtain ⟨hh,hs⟩ := scanChar_escape c (s.flatMap escape ++ '"'::rest)
    rw [scanString,if_neg hh,hs]
    simp only [bind_eq_bind,bind_some]
    rw [ih (by simpa using h)]
    rfl

theorem length_le_flatMap_escape (s : List Char) : s.length ≤ (s.flatMap escape).length := by
  induction s with
  | nil => rfl
  | cons c s ih =>
    have hp : 0 < (escape c).length := by
      rw [length_pos_iff]
      intro hn
      have hs := (scanChar_escape c []).2
      rw [hn] at hs
      cases hs
    rw [flatMap_cons,length_append,length_cons]
    omega

theorem scanString_quote (s rest : List Char) :
    ∃ cs, quote s ++ rest = '"'::cs ∧ scanString (cs.length+1) cs = some (s,rest) := by
  refine ⟨s.flatMap escape ++ '"'::rest,by simp [quote],scanString_flatMap s rest ?_⟩
  have hle := length_le_flatMap_escape s
  rw [length_append]
  omega

section RoundTrip

variable (fmt : FloatFormat)

variable {cs rest : List Char} {v : Json}

theorem skip_of_head (h : ∀ c ∈ cs.head?, isSpace c = false) : skip cs = cs := by
  cases cs with
  | nil => rfl
  | cons c cs => exact dropWhile_cons_of_neg (by simp [h c rfl])

theorem numeral_cons {r : List Char × Bool × List Char} (h : numeral cs = some r) :
    ∃ c cs', cs = c::cs' ∧ (c = '-' ∨ c.isDigit = true) := by
  cases cs with
  | nil => cases h
  | cons c cs =>
    refine ⟨c,cs,rfl,?_⟩
    by_cases hm : c = '-'
    · exact .inl hm
    · right
      by_contra hc
      have hz : c ≠ '0' := by
        rintro rfl
        exact hc (by decide)
      simp [numeral,minus,hm,whole,hz,hc] at h

theorem scanValue_number {isFloat : Bool} (hnu : numeral cs = some (cs,isFloat,[]))
    (hv : scanNumber fmt (cs ++ rest) = some (v,rest)) (fuel : ℕ) :
    scanValue fmt (fuel+1) (cs ++ rest) = some (v,rest) := by
  obtain ⟨c,cs,rfl,hc⟩ := numeral_cons hnu
  have hne : ∀ d : Char, d ≠ '-' → d.isDigit = false → c ≠ d := by
    rintro d hd hdi rfl
    rcases hc with hc | hc
    · exact hd hc
    · rw [hc] at hdi
      cases hdi
  have hl : scanLiteral (c::(cs ++ rest)) = none := by
    have hn := hne 'n' (by decide) (by decide)
    have ht := hne 't' (by decide) (by decide)
    have hf := hne 'f' (by decide) (by decide)
    simp [scanLiteral,literals,hn.symm,ht.symm,hf.symm]
  rw [cons_append] at hv ⊢
  rw [scanValue,if_neg (hne '"' (by decide) (by decide)),if_neg (hne '[' (by decide) (by decide)),
    if_neg (hne '{' (by decide) (by decide)),hl]
  exact hv

theorem scanNumber_decimal (n : ℤ) (hr : Ends rest) :
    scanNumber fmt (decimal n ++ rest) = some (.int n,rest) := by
  rw [scanNumber,numeral_append hr (numeral_decimal n)]
  simp [intOfText_decimal]

theorem scanNumber_repr {q : ℚ} (hq : fmt.IsDouble q) (hr : Ends rest) :
    scanNumber fmt (fmt.repr q ++ rest) = some (.float (.finite q),rest) := by
  rw [scanNumber,numeral_append hr (fmt.numeral_repr q hq)]
  simp [fmt.parse_repr q hq]

theorem text_cons (h : Representable fmt v) :
    ∃ c cs, text fmt v = c::cs ∧ isSpace c = false ∧ c ≠ ']' := by
  have hn : ∀ cs r, numeral cs = some r → ∃ c cs', cs = c::cs' ∧ isSpace c = false ∧ c ≠ ']' := by
    intro cs r hcs
    obtain ⟨c,cs',heq,hc⟩ := numeral_cons hcs
    refine ⟨c,cs',heq,?_⟩
    rcases hc with rfl | hc
    · decide
    · have hne : ∀ d : Char, d.isDigit = false → c ≠ d := fun d => isDigit_ne hc
      simp only [isSpace,Bool.or_eq_false_iff,decide_eq_false_iff_not]
      refine ⟨⟨⟨⟨?_,?_⟩,?_⟩,?_⟩,?_⟩ <;> exact hne _ (by decide)
  cases v with
  | null => exact ⟨_,_,by rw [text],by decide⟩
  | bool va =>
    cases va <;> exact ⟨_,_,by rw [text],by decide⟩
  | int n =>
    exact hn _ _ (numeral_decimal n)
  | float x =>
    cases x with
    | finite q =>
      exact hn _ _ (fmt.numeral_repr q h)
    | infinite negative =>
      exact h.elim
  | str s => exact ⟨_,_,by rw [text,quote,cons_append],by decide⟩
  | array _ | object _ => exact ⟨_,_,by rw [text,cons_append],by decide⟩

theorem skip_text (h : Representable fmt v) (rest : List Char) :
    skip (text fmt v ++ rest) = text fmt v ++ rest := by
  obtain ⟨c,cs,heq,hc,-⟩ := text_cons fmt h
  rw [heq]
  exact skip_of_head (by simp [hc])

theorem toDict_of_nodup {fs : JsonDict} (h : (fs.map Prod.fst).Nodup) : toDict fs = fs := by
  have haux : ∀ d : JsonDict, (∀ p ∈ d, p.1 ∉ fs.map Prod.fst) → fs.foldl setItem d = d ++ fs := by
    induction fs with
    | nil => simp
    | cons fl fs ih =>
      intro d hd
      rw [map_cons,nodup_cons] at h
      have ha : ¬d.any (fun p => p.1 = fl.1) := by
        simp only [List.any_eq_true,decide_eq_true_eq,not_exists,not_and]
        intro p hp heq
        exact hd p hp (heq ▸ mem_cons_self)
      rw [foldl_cons,setItem,if_neg ha,ih h.2,append_assoc,singleton_append]
      intro p hp hm
      rcases mem_append.mp hp with hp | hp
      · exact hd p hp (mem_cons_of_mem _ hm)
      · rw [mem_singleton] at hp
        exact h.1 (hp ▸ hm)
  exact haux [] (by simp)

theorem scanMembers_member (key : String) {fuel : ℕ} {c : Char} {rest : List Char}
    (h : Representable fmt v) (hc : isSpace c = false)
    (hs : scanValue fmt fuel (text fmt v ++ c::rest) = some (v,c::rest)) :
    let cs := quote key.toList ++ ':'::(text fmt v ++ c::rest)
    cs.head? ≠ some '}' ∧ skip cs = cs ∧ scanMembers fmt (fuel+1) cs =
      if c = '}' then some ([(key,v)],rest)
      else if c = ',' then
        (scanMembers fmt fuel (skip rest)).bind (fun r => some ((key,v)::r.1,r.2))
      else none := by
  intro cs
  obtain ⟨tl,heq,hk⟩ := scanString_quote key.toList (':'::(text fmt v ++ c::rest))
  rw [show cs = _ from heq]
  refine ⟨by simp,skip_of_head (by simp [isSpace]),?_⟩
  rw [scanMembers,if_neg (by simp),hk]
  simp only [bind_eq_bind,bind_some]
  rw [skip_of_head (by simp [isSpace])]
  simp only [ne_eq,not_true_eq_false,if_false]
  rw [skip_text fmt h,hs]
  simp only [bind_some]
  rw [skip_of_head (by simp [hc])]
  simp

mutual

theorem scanValue_text :
    ∀ (v : Json) (fuel : ℕ) (rest : List Char), Representable fmt v →
    Ends rest → 2*(text fmt v).length ≤ fuel → scanValue fmt fuel (text fmt v ++ rest) =
      some (v,rest)
  | v, 0, _, h, _, hf => by
    obtain ⟨c,cs,heq,-⟩ := text_cons fmt h
    simp [heq] at hf
  | .null, _+1, _, _, _, _ => rfl
  | .bool true, _+1, _, _, _, _ => rfl
  | .bool false, _+1, _, _, _, _ => rfl
  | .int n, fuel+1, rest, _, hr, _ => by
    rw [text]
    exact scanValue_number fmt (numeral_decimal n) (scanNumber_decimal fmt n hr) fuel
  | .float (.finite q), fuel+1, rest, h, hr, _ => by
    rw [Representable] at h
    rw [text]
    exact scanValue_number fmt (fmt.numeral_repr q h) (scanNumber_repr fmt h hr) fuel
  | .float (.infinite _), _+1, _, h, _, _ => by
    rw [Representable] at h
    exact h.elim
  | .str s, fuel+1, rest, _, _, _ => by
    obtain ⟨cs,heq,hs⟩ := scanString_quote s.toList rest
    rw [text,heq,scanValue,if_pos rfl,hs]
    simp
  | .array [], _+1, _, _, _, _ => rfl
  | .array (v::values), fuel+1, rest, h, _, hf => by
    rw [text,cons_append,length_cons,length_append] at hf
    rw [Representable] at h
    obtain ⟨hh,hsk,hs⟩ := scanElements_texts (v::values) fuel rest (cons_ne_nil _ _) h
      (by simp only [length_singleton] at hf; omega)
    rw [text,cons_append,cons_append,append_assoc,singleton_append,scanValue,
      if_neg (by decide),if_pos rfl,hsk,if_neg hh,hs]
    rfl
  | .object [], _+1, _, _, _, _ => rfl
  | .object ((key,v)::fields), fuel+1, rest, h, _, hf => by
    rw [text,cons_append,length_cons,length_append] at hf
    rw [Representable] at h
    obtain ⟨hh,hsk,hs⟩ := scanMembers_fieldTexts ((key,v)::fields) fuel rest
      (cons_ne_nil _ _) h.2 (by simp only [length_singleton] at hf; omega)
    rw [text,cons_append,cons_append,append_assoc,singleton_append,scanValue,
      if_neg (by decide),if_neg (by decide),if_pos rfl,hsk,if_neg hh,hs]
    simp [toDict_of_nodup h.1]

theorem scanElements_texts : ∀ (vs : List Json) (fuel : ℕ) (rest : List Char), vs ≠ [] →
    AllRepresentable fmt vs →
    2*(intercalate [','] (texts fmt vs)).length+1 ≤ fuel →
    (intercalate [','] (texts fmt vs) ++ ']'::rest).head? ≠ some ']' ∧
    skip (intercalate [','] (texts fmt vs) ++ ']'::rest) =
      intercalate [','] (texts fmt vs) ++ ']'::rest ∧
    scanElements fmt fuel (intercalate [','] (texts fmt vs) ++ ']'::rest) = some (vs,rest)
  | _, 0, _, _, _, hf => absurd hf (not_succ_le_zero _)
  | [], _+1, _, hne, _, _ => absurd rfl hne
  | [v], fuel+1, rest, _, h, hf => by
    rw [AllRepresentable] at h
    have ht : intercalate [','] (texts fmt [v]) = text fmt v := by simp [texts]
    rw [ht] at hf ⊢
    refine ⟨?_,skip_text fmt h.1 _,?_⟩
    · obtain ⟨c,cs,heq,-,hc⟩ := text_cons fmt h.1
      simpa [heq] using hc
    · rw [scanElements,scanValue_text v fuel (']'::rest) h.1 (by simp [Ends]) (by omega)]
      rfl
  | v::w::vs, fuel+1, rest, _, h, hf => by
    rw [AllRepresentable] at h
    have ht : intercalate [','] (texts fmt (v::w::vs)) =
        text fmt v ++ ','::intercalate [','] (texts fmt (w::vs)) := by
      rw [texts,texts,intercalate_cons_cons]
    rw [ht] at hf ⊢
    rw [length_append,length_cons] at hf
    obtain ⟨-,hs,hsc⟩ := scanElements_texts (w::vs) fuel rest (cons_ne_nil _ _) h.2 (by omega)
    rw [append_assoc,cons_append]
    refine ⟨?_,skip_text fmt h.1 _,?_⟩
    · obtain ⟨c,cs,heq,-,hc⟩ := text_cons fmt h.1
      simpa [heq] using hc
    · rw [scanElements,scanValue_text v fuel _ h.1 (by simp [Ends]) (by omega)]
      simp only [bind_eq_bind,bind_some]
      rw [skip_of_head (by simp [isSpace])]
      simp [hs,hsc]

theorem scanMembers_fieldTexts : ∀ (fs : JsonDict) (fuel : ℕ) (rest : List Char), fs ≠ [] →
    FieldsRepresentable fmt fs →
    2*(intercalate [','] (fieldTexts fmt fs)).length+1 ≤ fuel →
    (intercalate [','] (fieldTexts fmt fs) ++ '}'::rest).head? ≠ some '}' ∧
    skip (intercalate [','] (fieldTexts fmt fs) ++ '}'::rest) =
      intercalate [','] (fieldTexts fmt fs) ++ '}'::rest ∧
    scanMembers fmt fuel (intercalate [','] (fieldTexts fmt fs) ++ '}'::rest) = some (fs,rest)
  | _, 0, _, _, _, hf => absurd hf (not_succ_le_zero _)
  | [], _+1, _, hne, _, _ => absurd rfl hne
  | [(key,v)], fuel+1, rest, _, h, hf => by
    rw [FieldsRepresentable] at h
    have ht : intercalate [','] (fieldTexts fmt [(key,v)]) =
        quote key.toList ++ ':'::text fmt v := by simp [fieldTexts]
    rw [ht] at hf ⊢
    rw [length_append,length_cons] at hf
    rw [append_assoc,cons_append]
    exact scanMembers_member fmt key h.1 (by decide)
      (scanValue_text v fuel _ h.1 (by simp [Ends]) (by omega))
  | (key,v)::(key',w)::fs, fuel+1, rest, _, h, hf => by
    rw [FieldsRepresentable] at h
    have ht : intercalate [','] (fieldTexts fmt ((key,v)::(key',w)::fs)) =
        quote key.toList ++ ':'::(text fmt v ++
          ','::intercalate [','] (fieldTexts fmt ((key',w)::fs))) := by
      rw [fieldTexts,fieldTexts,intercalate_cons_cons,append_assoc,cons_append]
    rw [ht] at hf ⊢
    simp only [length_append,length_cons] at hf
    obtain ⟨-,hs,hsc⟩ := scanMembers_fieldTexts ((key',w)::fs) fuel rest
      (cons_ne_nil _ _) h.2 (by omega)
    rw [append_assoc,cons_append,append_assoc,cons_append]
    have hm := scanMembers_member fmt key h.1 (by decide)
      (scanValue_text v fuel (','::(intercalate [','] (fieldTexts fmt ((key',w)::fs)) ++
        '}'::rest)) h.1 (by simp [Ends]) (by omega))
    rw [hs,hsc] at hm
    exact hm

end

mutual

theorem encodable_of_representable : ∀ v : Json, Representable fmt v → encodable v = true
  | .null, _ => rfl
  | .bool _, _ => rfl
  | .int _, _ => rfl
  | .float (.finite _), _ => rfl
  | .float (.infinite _), h => by
    rw [Representable] at h
    exact h.elim
  | .str _, _ => rfl
  | .array values, h => by
    rw [Representable] at h
    exact allEncodable_of_representable values h
  | .object fields, h => by
    rw [Representable] at h
    exact fieldsEncodable_of_representable fields h.2

theorem allEncodable_of_representable :
    ∀ vs : List Json, AllRepresentable fmt vs → allEncodable vs = true
  | [], _ => rfl
  | v::vs, h => by
    rw [AllRepresentable] at h
    rw [allEncodable,encodable_of_representable v h.1,allEncodable_of_representable vs h.2]
    rfl

theorem fieldsEncodable_of_representable :
    ∀ fs : JsonDict, FieldsRepresentable fmt fs → fieldsEncodable fs = true
  | [], _ => rfl
  | (_,v)::fs, h => by
    rw [FieldsRepresentable] at h
    rw [fieldsEncodable,encodable_of_representable v h.1,fieldsEncodable_of_representable fs h.2]
    rfl

end

variable {fmt} {E : Type} {v : Json}

theorem encode_of_representable (h : Representable fmt v) :
    (encode fmt v : Py E String) = .ok (String.ofList (text fmt v)) :=
  if_pos (encodable_of_representable fmt v h)

theorem decode_text (h : Representable fmt v) :
    (decode fmt (String.ofList (text fmt v)) : Py E Json) = .ok v := by
  have hs := skip_text fmt h []
  have hsc := scanValue_text fmt v (2*(String.ofList (text fmt v)).length+1) [] h (by simp [Ends])
    (by rw [String.length_ofList]; omega)
  rw [append_nil] at hs hsc
  rw [decode,String.toList_ofList,hs,hsc]
  rfl

end RoundTrip

section Dicts

variable {key : String} {va : Json}

section

variable (d : JsonDict)
include d

theorem lookup_setItem_self (key : String) (va : Json) :
    (setItem d (key,va)).lookup key = some va := by
  unfold setItem
  split
  · rename_i ha
    induction d with
    | nil => simp at ha
    | cons p d ih =>
      by_cases hp : p.1 = key
      · simp [hp]
      · have hne : (key == p.1) = false := by simpa using fun h => hp h.symm
        rw [map_cons,if_neg hp,lookup_cons,hne]
        exact ih (by simpa [hp] using ha)
  · rename_i ha
    have hn : d.lookup key = none := by
      rw [lookup_eq_none_iff]
      intro p hp
      simp only [List.any_eq_true,decide_eq_true_eq,not_exists,not_and] at ha
      simpa using fun h => ha p hp h.symm
    rw [lookup_append,hn]
    simp

theorem lookup_setItem_of_ne {key' : String} (h : key' ≠ key) :
    (setItem d (key,va)).lookup key' = d.lookup key' := by
  have hne : (key' == key) = false := by simpa using h
  have hm : (d.map (fun p => if p.1 = key then (key,va) else p)).lookup key' = d.lookup key' := by
    induction d with
    | nil => rfl
    | cons p d ih =>
      by_cases hp : p.1 = key
      · rw [map_cons,if_pos hp,lookup_cons,lookup_cons,hp,hne]
        exact ih
      · rw [map_cons,if_neg hp,lookup_cons,lookup_cons,ih]
  unfold setItem
  split
  · exact hm
  · rw [lookup_append,lookup_cons,hne]
    simp

theorem lookup_filter_fst (p : String → Bool) (key : String) :
    (d.filter (fun q => p q.1)).lookup key = if p key then d.lookup key else none := by
  induction d with
  | nil => simp
  | cons q d ih =>
    obtain ⟨k,v⟩ := q
    by_cases hk : key = k
    · subst hk
      by_cases hp : p key = true
      · simp [hp]
      · simp [hp,ih]
    · have hk' : (key == k) = false := by simpa using hk
      by_cases hp : p k = true <;> simp [hp,lookup_cons,hk',ih]

theorem filter_setItem_of_false {p : String → Bool} (h : p key = false) :
    (setItem d (key,va)).filter (fun q => p q.1) = d.filter (fun q => p q.1) := by
  have hm : (d.map (fun q => if q.1 = key then (key,va) else q)).filter (fun q => p q.1) =
      d.filter (fun q => p q.1) := by
    induction d with
    | nil => rfl
    | cons q d ih =>
      by_cases hq : q.1 = key
      · rw [map_cons,if_pos hq,filter_cons_of_neg (by simp [h]),
          filter_cons_of_neg (by simp [hq,h]),ih]
      · rw [map_cons,if_neg hq,filter_cons,filter_cons,ih]
  unfold setItem
  split
  · exact hm
  · simp [h]

theorem filter_setItem_of_true {p : String → Bool} (h : p key = true) :
    (setItem d (key,va)).filter (fun q => p q.1) =
      setItem (d.filter (fun q => p q.1)) (key,va) := by
  have hm : (d.map (fun q => if q.1 = key then (key,va) else q)).filter (fun q => p q.1) =
      (d.filter (fun q => p q.1)).map (fun q => if q.1 = key then (key,va) else q) := by
    induction d with
    | nil => rfl
    | cons q d ih =>
      by_cases hq : q.1 = key
      · rw [map_cons,if_pos hq,filter_cons_of_pos (by simp [h]),
          filter_cons_of_pos (by simp [hq,h]),ih,map_cons,if_pos hq]
      · by_cases hp : p q.1 = true
        · rw [map_cons,if_neg hq,filter_cons_of_pos (by simp [hp]),
            filter_cons_of_pos (by simp [hp]),ih,map_cons,if_neg hq]
        · rw [map_cons,if_neg hq,filter_cons_of_neg (by simp [hp]),
            filter_cons_of_neg (by simp [hp]),ih]
  have ha : (d.filter (fun q => p q.1)).any (fun q => q.1 = key) = d.any (fun q => q.1 = key) := by
    rw [Bool.eq_iff_iff]
    simp only [List.any_eq_true,mem_filter,decide_eq_true_eq]
    constructor
    · rintro ⟨q,⟨hq,-⟩,heq⟩
      exact ⟨q,hq,heq⟩
    · rintro ⟨q,hq,heq⟩
      exact ⟨q,⟨hq,by rw [heq,h]⟩,heq⟩
  unfold setItem
  rw [ha]
  split
  · exact hm
  · simp [h]

theorem setItem_setItem (v' : Json) :
    setItem (setItem d (key,va)) (key,v') = setItem d (key,v') := by
  by_cases ha : d.any (fun q => q.1 = key) = true
  · have hs : ∀ v : Json, setItem d (key,v) =
        d.map (fun q => if q.1 = key then (key,v) else q) := fun v => if_pos ha
    rw [hs,hs,setItem,if_pos]
    · rw [List.map_map]
      apply map_congr_left
      intro q _
      by_cases hq : q.1 = key <;> simp [hq]
    · obtain ⟨q,hq,heq⟩ := any_eq_true.mp ha
      refine any_eq_true.mpr ⟨(key,va),mem_map.mpr ⟨q,hq,?_⟩,by simp⟩
      rw [if_pos (by simpa using heq)]
  · have hs : ∀ v : Json, setItem d (key,v) = d ++ [(key,v)] := fun v => if_neg ha
    have hm : d.map (fun q => if q.1 = key then (key,v') else q) = d := by
      simp only [List.any_eq_true,decide_eq_true_eq,not_exists,not_and] at ha
      calc d.map (fun q => if q.1 = key then (key,v') else q)
          = d.map id := map_congr_left (fun q hq => if_neg (ha q hq))
        _ = d := map_id d
    rw [hs,hs,setItem,map_append,hm]
    simp

end

end Dicts

end Synapse.PythonText
