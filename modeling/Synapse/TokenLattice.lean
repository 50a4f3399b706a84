import Synapse.StreamTokens
import Synapse.Python

/-!
# Live tokens as vector clocks

A live token gives each of infinitely many instances its position. Only the
positions ahead of the minimum are stored, so tokens with the same positions are
equal, and the operations on tokens are those of the lattice of positions.
-/

set_option autoImplicit false

namespace Synapse.RoomStreamToken
open Python Dict AList

/-- `__attrs_post_init__` -/
def create (topological : Option ℤ) (stream : ℤ) (instanceMap : Dict String ℤ) :
    Py Empty RoomStreamToken :=
  if instanceMap.entries ≠ [] ∧ topological.getD 0 ≠ 0 then .error .valueError
  else if h : ∀ entry ∈ instanceMap.entries, stream < entry.2 then
    .ok ⟨topological,stream,instanceMap,fun _ _ hl => h _ (mem_lookup_iff.mp hl)⟩
  else .error .valueError

def copyAndAdvance (token other : RoomStreamToken) : Py Empty RoomStreamToken :=
  if token.topological.getD 0 ≠ 0 ∨ other.topological.getD 0 ≠ 0 then
    .error (.exception "Can't advance topological tokens")
  else
    let maxStream := max token.stream other.stream
    let instanceMap := (token.instanceMap.keys ++ other.instanceMap.keys).foldl
      (fun d instanceName => d.insert instanceName (max (token.getStreamPosForInstance instanceName)
        (other.getStreamPosForInstance instanceName))) (∅ : Dict String ℤ)
    create token.topological maxStream (filter instanceMap (fun _ pos => maxStream < pos))

def boundStreamToken (token : RoomStreamToken) (maxStream : ℤ) : Py Empty RoomStreamToken :=
  if token.topological ≠ none then .error .assertionError
  else
    let minPos := min token.stream maxStream
    create none minPos (filter (mapValues token.instanceMap (fun pos => min pos maxStream))
      (fun _ pos => minPos < pos))

/-- A row without an instance name was persisted before there were several writers. -/
def streamFor (token : RoomStreamToken) (instanceName : Option String) : ℤ :=
  match instanceName with
  | none => token.stream
  | some instanceName =>
    if instanceName = "" then token.stream else token.getStreamPosForInstance instanceName

def isStreamPositionInRange (low high : Option RoomStreamToken) (instanceName : Option String)
    (pos : ℤ) : Bool :=
  low.all (fun low => low.streamFor instanceName < pos) &&
    high.all (fun high => pos ≤ high.streamFor instanceName)

/-- `==` of tokens. -/
def Same (token other : RoomStreamToken) : Prop :=
  token.topological = other.topological ∧ token.stream = other.stream ∧
    ∀ instanceName, token.instanceMap.lookup instanceName = other.instanceMap.lookup instanceName

abbrev Live := { token : RoomStreamToken // token.topological = none }

def clock (token : RoomStreamToken) : String → ℤ := token.getStreamPosForInstance

variable {tk other : RoomStreamToken}

theorem lookup_eq (tk : RoomStreamToken) (i : String) :
    tk.instanceMap.lookup i = if tk.stream < tk.clock i then some (tk.clock i)
      else none := by
  rw [clock,getStreamPosForInstance]
  cases h : tk.instanceMap.lookup i with
  | none => simp
  | some pos => simp [tk.ahead i pos h]

theorem clock_of_notMem {i : String} (h : i ∉ tk.instanceMap.keys) : tk.clock i = tk.stream := by
  rw [clock,getStreamPosForInstance,lookup_eq_none.mpr h]
  rfl

theorem stream_le_of_clock_le (h : tk.clock ≤ other.clock) : tk.stream ≤ other.stream := by
  obtain ⟨i,hi⟩ := Infinite.exists_notMem_finset other.instanceMap.keys.toFinset
  rw [List.mem_toFinset] at hi
  calc tk.stream ≤ tk.clock i := tk.stream_le_pos i
    _ ≤ other.clock i := h i
    _ = other.stream := clock_of_notMem hi

theorem isBeforeOrEq_iff : tk.isBeforeOrEq other = true ↔ tk.clock ≤ other.clock := by
  constructor
  · exact fun h => pos_le_of_isBeforeOrEq tk other h
  · intro h
    simp only [isBeforeOrEq,Bool.and_eq_true,decide_eq_true_eq,List.all_eq_true]
    exact ⟨stream_le_of_clock_le h,fun i _ => h i⟩

theorem same_of_clock {tk other : Live} (h : tk.1.clock = other.1.clock) : Same tk.1 other.1 := by
  have hs : tk.1.stream = other.1.stream :=
    le_antisymm (stream_le_of_clock_le h.le) (stream_le_of_clock_le h.ge)
  refine ⟨tk.2.trans other.2.symm,hs,?_⟩
  intro i
  rw [lookup_eq,lookup_eq,hs,h]

theorem create_live {sm : ℤ} {instanceMap : Dict String ℤ} {f : String → ℤ}
    (hm : ∀ i, instanceMap.lookup i = if sm < f i then some (f i) else none) (hf : ∀ i, sm ≤ f i) :
    ∃ tk : Live, create none sm instanceMap = .ok tk.1 ∧ tk.1.stream = sm ∧ tk.1.clock = f := by
  have ha : ∀ e ∈ instanceMap.entries, sm < e.2 := by
    intro e he
    have hl : instanceMap.lookup e.1 = some e.2 := mem_lookup_iff.mpr he
    rw [hm] at hl
    split at hl
    · next hlt => exact Option.some.inj hl ▸ hlt
    · cases hl
  rw [create,if_neg (by simp),dif_pos ha]
  refine ⟨⟨_,rfl⟩,rfl,rfl,?_⟩
  funext i
  rw [clock,getStreamPosForInstance,hm]
  split
  · rfl
  · next hle => exact le_antisymm (hf i) (not_lt.mp hle)

theorem copyAndAdvance_spec (tk other : Live) : ∃ joined : Live,
    tk.1.copyAndAdvance other.1 = .ok joined.1 ∧ joined.1.stream = max tk.1.stream other.1.stream ∧
      joined.1.clock = tk.1.clock ⊔ other.1.clock := by
  rw [copyAndAdvance,if_neg (by simp [tk.2,other.2]),tk.2]
  refine create_live (fun i => ?_) (fun i => ?_)
  · rw [lookup_filter,lookup_foldl_set]
    split
    · simp [Option.filter,clock]
    · next hi =>
      rw [List.mem_append,not_or] at hi
      simp [clock_of_notMem hi.1,clock_of_notMem hi.2]
  · exact max_le_max (tk.1.stream_le_pos i) (other.1.stream_le_pos i)

theorem boundStreamToken_spec (tk : Live) (maxStream : ℤ) : ∃ bd : Live,
    tk.1.boundStreamToken maxStream = .ok bd.1 ∧ bd.1.stream = min tk.1.stream maxStream ∧
      bd.1.clock = tk.1.clock ⊓ fun _ => maxStream := by
  have hs := tk.1.stream_le_pos
  rw [boundStreamToken,if_neg (by simp [tk.2])]
  refine create_live (fun i => ?_) (fun i => min_le_min (hs i) le_rfl)
  rw [lookup_filter,lookup_mapValues,lookup_eq]
  split
  · simp [Option.filter]
  · next hi =>
    have he : tk.1.clock i = tk.1.stream := le_antisymm (not_lt.mp hi) (hs i)
    simp [he]

/-- Tokens are ordered as the positions they give each writer, and advancing one by another is
their join. -/
theorem live_tokens_lattice (a b c : Live) (maxStream : ℤ) :
    (a.1.isBeforeOrEq b.1 = true ↔ a.1.clock ≤ b.1.clock) ∧
    a.1.isBeforeOrEq a.1 = true ∧
    (a.1.isBeforeOrEq b.1 = true → b.1.isBeforeOrEq a.1 = true → Same a.1 b.1) ∧
    (a.1.isBeforeOrEq b.1 = true → b.1.isBeforeOrEq c.1 = true → a.1.isBeforeOrEq c.1 = true) ∧
    (∃ joined : Live, a.1.copyAndAdvance b.1 = .ok joined.1 ∧
      joined.1.clock = a.1.clock ⊔ b.1.clock ∧
      a.1.isBeforeOrEq joined.1 = true ∧ b.1.isBeforeOrEq joined.1 = true ∧
      (a.1.isBeforeOrEq c.1 = true → b.1.isBeforeOrEq c.1 = true →
        joined.1.isBeforeOrEq c.1 = true) ∧
      (∃ other : Live, b.1.copyAndAdvance a.1 = .ok other.1 ∧ Same joined.1 other.1) ∧
      (∃ x y z : Live, joined.1.copyAndAdvance c.1 = .ok x.1 ∧
        b.1.copyAndAdvance c.1 = .ok y.1 ∧ a.1.copyAndAdvance y.1 = .ok z.1 ∧ Same x.1 z.1) ∧
      ∀ writer pos, (isStreamPositionInRange (some a.1) none writer pos = true ∧
        isStreamPositionInRange (some b.1) none writer pos = true) ↔
          isStreamPositionInRange (some joined.1) none writer pos = true) ∧
    (∃ joined : Live, a.1.copyAndAdvance a.1 = .ok joined.1 ∧ Same joined.1 a.1) ∧
    ∃ bound : Live, a.1.boundStreamToken maxStream = .ok bound.1 ∧
      bound.1.clock = a.1.clock ⊓ fun _ => maxStream := by
  obtain ⟨joined,hj,hs,hc⟩ := copyAndAdvance_spec a b
  obtain ⟨swapped,hw,-,hwc⟩ := copyAndAdvance_spec b a
  obtain ⟨x,hx,-,hxc⟩ := copyAndAdvance_spec joined c
  obtain ⟨y,hy,-,hyc⟩ := copyAndAdvance_spec b c
  obtain ⟨z,hz,-,hzc⟩ := copyAndAdvance_spec a y
  obtain ⟨twice,ht,-,htc⟩ := copyAndAdvance_spec a a
  obtain ⟨bound,hb,-,hbc⟩ := boundStreamToken_spec a maxStream
  refine ⟨isBeforeOrEq_iff,?_⟩
  simp only [isBeforeOrEq_iff]
  refine ⟨le_rfl,fun h h' => same_of_clock (le_antisymm h h'),le_trans,
    ⟨joined,hj,hc,hc ▸ le_sup_left,hc ▸ le_sup_right,fun h h' => hc ▸ sup_le h h',
      ⟨swapped,hw,same_of_clock ?_⟩,⟨x,y,z,hx,hy,hz,same_of_clock ?_⟩,fun writer pos => ?_⟩,
    ⟨twice,ht,same_of_clock ?_⟩,bound,hb,hbc⟩
  · rw [hc,hwc,sup_comm]
  · rw [hxc,hc,hzc,hyc,sup_assoc]
  · have hf : joined.1.streamFor writer = max (a.1.streamFor writer) (b.1.streamFor writer) := by
      rcases writer with - | writer
      · exact hs
      · rw [streamFor,streamFor,streamFor]
        split
        · exact hs
        · exact congrFun hc writer
    simp [isStreamPositionInRange,hf]
  · rw [htc,sup_idem]

end Synapse.RoomStreamToken
