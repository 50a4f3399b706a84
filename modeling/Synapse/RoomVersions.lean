import Mathlib

/-!
# Room versions

The known room versions and the flags the auth rules and redactions read.
-/

set_option autoImplicit false

namespace Synapse

inductive EventFormatVersion where
  | roomV1V2
  | roomV3
  | roomV4Plus
  deriving DecidableEq

inductive RoomVersion where
  | v1
  | v2
  | v3
  | v4
  | v5
  | v6
  | v7
  | v8
  | v9
  | v10
  | msc1767v10
  | msc3757v10
  | v11
  | msc3757v11
  deriving DecidableEq

namespace RoomVersion

def eventFormat : RoomVersion → EventFormatVersion
  | v1 | v2 => .roomV1V2
  | v3 => .roomV3
  | _ => .roomV4Plus

def specialCaseAliasesAuth : RoomVersion → Bool
  | v1 | v2 | v3 | v4 | v5 => true
  | _ => false

def limitNotificationsPowerLevels : RoomVersion → Bool
  | v1 | v2 | v3 | v4 | v5 => false
  | _ => true

def implicitRoomCreator : RoomVersion → Bool
  | v11 | msc3757v11 => true
  | _ => false

def updatedRedactionRules : RoomVersion → Bool
  | v11 | msc3757v11 => true
  | _ => false

def knockJoinRule : RoomVersion → Bool
  | v1 | v2 | v3 | v4 | v5 | v6 => false
  | _ => true

def restrictedJoinRule : RoomVersion → Bool
  | v1 | v2 | v3 | v4 | v5 | v6 | v7 => false
  | _ => true

def restrictedJoinRuleFix : RoomVersion → Bool
  | v1 | v2 | v3 | v4 | v5 | v6 | v7 | v8 => false
  | _ => true

/-- No version has it yet. -/
def msc3389RelationRedactions : RoomVersion → Bool := fun _ => false

def knockRestrictedJoinRule : RoomVersion → Bool
  | v10 | msc1767v10 | msc3757v10 | v11 | msc3757v11 => true
  | _ => false

def enforceIntPowerLevels : RoomVersion → Bool
  | v10 | msc1767v10 | msc3757v10 | v11 | msc3757v11 => true
  | _ => false

def msc3757Enabled : RoomVersion → Bool
  | msc3757v10 | msc3757v11 => true
  | _ => false

theorem restricted_of_knockRestricted {version : RoomVersion}
    (h : version.knockRestrictedJoinRule = true) : version.restrictedJoinRule = true := by
  cases version <;> simp [knockRestrictedJoinRule,restrictedJoinRule] at h ⊢

end RoomVersion
end Synapse
