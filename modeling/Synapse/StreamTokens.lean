import Synapse.Dict

/-!
# Tokens of the room stream

A token is a position between events. Where several writers persist events, it has
the position that all of them have reached and the positions of those that are
ahead. A token may also point into the history of a room, by depth.
-/

set_option autoImplicit false

namespace Synapse

structure RoomStreamToken where
  topological : Option ℤ
  stream : ℤ
  instanceMap : Dict String ℤ
  ahead : ∀ instanceName pos, instanceMap.lookup instanceName = some pos → stream < pos

namespace RoomStreamToken

def plain (stream : ℤ) : RoomStreamToken where
  topological := none
  stream := stream
  instanceMap := ∅
  ahead := by simp

variable (token other : RoomStreamToken)

def getMaxStreamPos : ℤ := ((Dict.values token.instanceMap).max?).getD token.stream

def getStreamPosForInstance (instanceName : String) : ℤ :=
  (token.instanceMap.lookup instanceName).getD token.stream

def isBeforeOrEq : Bool :=
  token.stream ≤ other.stream &&
    (token.instanceMap.keys ++ other.instanceMap.keys).all (fun instanceName =>
      token.getStreamPosForInstance instanceName ≤ other.getStreamPosForInstance instanceName)

@[simp] theorem plain_getMaxStreamPos (sm : ℤ) : (plain sm).getMaxStreamPos = sm := by
  rfl

theorem stream_le_pos (inst : String) : token.stream ≤ token.getStreamPosForInstance inst := by
  rw [getStreamPosForInstance]
  cases hp : token.instanceMap.lookup inst with
  | none => exact le_refl _
  | some pos => exact le_of_lt (token.ahead _ _ hp)

theorem le_max_of_mem {pos : ℤ} (h : pos ∈ Dict.values token.instanceMap) :
    pos ≤ token.getMaxStreamPos := by
  rw [getMaxStreamPos]
  cases hm : (Dict.values token.instanceMap).max? with
  | none =>
    rw [List.max?_eq_none_iff] at hm
    simp [hm] at h
  | some m => exact (List.max?_eq_some_iff.mp hm).2 pos h

theorem pos_le_max (inst : String) :
    token.getStreamPosForInstance inst ≤ token.getMaxStreamPos := by
  rw [getStreamPosForInstance]
  cases hp : token.instanceMap.lookup inst with
  | some pos => exact token.le_max_of_mem ((Dict.mem_values _ _).mpr ⟨_,hp⟩)
  | none =>
    rw [getMaxStreamPos]
    cases hm : (Dict.values token.instanceMap).max? with
    | none => exact le_refl _
    | some m =>
      obtain ⟨ahead,ha⟩ := (Dict.mem_values _ _).mp (List.max?_eq_some_iff.mp hm).1
      exact le_of_lt (token.ahead _ _ ha)

theorem pos_le_of_isBeforeOrEq (h : token.isBeforeOrEq other = true) (inst : String) :
    token.getStreamPosForInstance inst ≤ other.getStreamPosForInstance inst := by
  simp only [isBeforeOrEq,Bool.and_eq_true,decide_eq_true_eq,List.all_eq_true] at h
  by_cases hm : inst ∈ token.instanceMap.keys ++ other.instanceMap.keys
  · exact h.2 _ hm
  · have hn : ∀ t : RoomStreamToken, inst ∉ t.instanceMap.keys →
        t.getStreamPosForInstance inst = t.stream := by
      intro t ht
      rw [getStreamPosForInstance,AList.lookup_eq_none.mpr ht]
      rfl
    rw [List.mem_append,not_or] at hm
    rw [hn token hm.1,hn other hm.2]
    exact h.1

end RoomStreamToken

end Synapse
