import CenDB.Lib.Table

/-! # Role-based access control

A role is a list of permissions on patterns of resources; users hold roles by name.  `Defined` and
`Assigned` say from the calls made so far which role a name stands for and which names a user holds.

A pattern matches a text that can be cut into one piece for every character of the pattern
(`Matches`). -/

namespace CenDB.Security

open List Table

inductive Permission
  | read | write | create | drop | admin
  deriving DecidableEq, Repr

structure Role where
  name : String
  grants : List (String × Permission)
  deriving DecidableEq

inductive RbacError
  | roleNotFound | roleAlreadyExists | userNotFound | permissionDenied
  deriving DecidableEq, Repr

structure RbacManager where
  roles : Table String Role
  userRoles : Table UInt64 (List String)

/-! ### Patterns -/

/-- What is left of the pattern against what is left of the text. -/
def globMatchHelper : List Char → List Char → Bool
  | [], t => t.isEmpty
  | c :: p, t =>
    if c = '*' then t.tails.any (globMatchHelper p)
    else if c = '?' then
      match t with
      | [] => false
      | _ :: rest => globMatchHelper p rest
    else
      match t with
      | [] => false
      | d :: rest => d == c && globMatchHelper p rest

def globMatch (pattern text : String) : Bool := globMatchHelper pattern.toList text.toList

/-- What a character of a pattern takes of the text: a star anything, a question mark one character, any
other character itself. -/
def Takes (c : Char) (piece : List Char) : Prop :=
  if c = '*' then True
  else if c = '?' then piece.length = 1
  else piece = [c]

/-- The text can be split along the pattern. -/
def Matches (pattern text : String) : Prop :=
  ∃ pieces : List (List Char), pieces.flatten = text.toList ∧ List.Forall₂ Takes pattern.toList pieces

/-! ### The manager -/

namespace RbacManager

def adminRole : Role := ⟨"admin", [("*", .read), ("*", .write), ("*", .create), ("*", .drop), ("*", .admin)]⟩

def readOnlyRole : Role := ⟨"read_only", [("*", .read)]⟩

def analystRole : Role := ⟨"analyst", [("*", .read), ("analytics.*", .write), ("analytics.*", .create)]⟩

def createDefaultRoles (m : RbacManager) : RbacManager :=
  { m with roles := ((m.roles.insert "admin" adminRole).insert "read_only" readOnlyRole).insert "analyst" analystRole }

def new : RbacManager := createDefaultRoles ⟨∅, ∅⟩

def createRole (role : Role) (m : RbacManager) : Except RbacError Unit × RbacManager :=
  if (m.roles.lookup role.name).isSome then (.error .roleAlreadyExists, m)
  else (.ok (), { m with roles := m.roles.insert role.name role })

def assignRoleToUser (userId : UInt64) (roleName : String) (m : RbacManager) :
    Except RbacError Unit × RbacManager :=
  if (m.roles.lookup roleName).isNone then (.error .roleNotFound, m)
  else
    let roles := (m.userRoles.lookup userId).getD []
    let roles := if roles.contains roleName then roles else roles ++ [roleName]
    (.ok (), { m with userRoles := m.userRoles.insert userId roles })

def revokeRoleFromUser (userId : UInt64) (roleName : String) (m : RbacManager) :
    Except RbacError Unit × RbacManager :=
  match m.userRoles.lookup userId with
  | none => (.error .userNotFound, m)
  | some roles =>
    (.ok (), { m with userRoles := m.userRoles.insert userId (roles.filter (· != roleName)) })

/-- Some grant of the role is for the permission and its pattern matches the resource. -/
def grantsTo (role : Role) (resource : String) (permission : Permission) : Bool :=
  role.grants.any fun (pattern, perm) => decide (perm = permission) && globMatch pattern resource

def check (userId : UInt64) (resource : String) (permission : Permission) (m : RbacManager) :
    Except RbacError Unit :=
  match m.userRoles.lookup userId with
  | none => .error .permissionDenied
  | some roleNames =>
    let granted := roleNames.any fun roleName =>
      match m.roles.lookup roleName with
      | none => false
      | some role => grantsTo role resource permission
    if granted then .ok () else .error .permissionDenied

end RbacManager

open RbacManager

/-! ### Runs -/

inductive RbacCall
  | createRole (role : Role)
  | assignRoleToUser (userId : UInt64) (roleName : String)
  | revokeRoleFromUser (userId : UInt64) (roleName : String)
  deriving DecidableEq

def RbacManager.perform (m : RbacManager) : RbacCall → Except RbacError Unit × RbacManager
  | .createRole role => m.createRole role
  | .assignRoleToUser userId roleName => m.assignRoleToUser userId roleName
  | .revokeRoleFromUser userId roleName => m.revokeRoleFromUser userId roleName

def RbacManager.runCalls (calls : List RbacCall) : RbacManager :=
  calls.foldl (fun m call => (m.perform call).2) new

def RbacCall.created? : RbacCall → Option Role
  | .createRole role => some role
  | _ => none

/-- The role of a name: a default one, else the first one created with it. -/
def Defined (calls : List RbacCall) (roleName : String) : Option Role :=
  ([adminRole, readOnlyRole, analystRole] ++ calls.filterMap RbacCall.created?).find? (·.name = roleName)

/-- The user was given the role after it was defined, and it was not revoked later. -/
def Assigned (calls : List RbacCall) (userId : UInt64) (roleName : String) : Prop :=
  ∃ earlier later, calls = earlier ++ .assignRoleToUser userId roleName :: later ∧
    (Defined earlier roleName).isSome ∧ .revokeRoleFromUser userId roleName ∉ later

/-! ### Matching is splitting -/

theorem forall₂_takes_cons {c : Char} {p t : List Char} :
    (∃ pieces : List (List Char), pieces.flatten = t ∧ List.Forall₂ Takes (c :: p) pieces) ↔
      ∃ piece rest, t = piece ++ rest ∧ Takes c piece ∧
        ∃ pieces : List (List Char), pieces.flatten = rest ∧ List.Forall₂ Takes p pieces := by
  constructor
  · rintro ⟨pieces, rfl, hpieces⟩
    cases hpieces with
    | cons hpiece hrest => exact ⟨_, _, rfl, hpiece, _, rfl, hrest⟩
  · rintro ⟨piece, -, rfl, hpiece, pieces, rfl, hpieces⟩
    exact ⟨piece :: pieces, rfl, hpieces.cons hpiece⟩

theorem globMatchHelper_iff (p t : List Char) : globMatchHelper p t = true ↔
    ∃ pieces : List (List Char), pieces.flatten = t ∧ List.Forall₂ Takes p pieces := by
  induction p generalizing t with
  | nil =>
    rw [globMatchHelper, List.isEmpty_iff]
    constructor
    · simp
    · simp
  | cons c p ih =>
    rw [forall₂_takes_cons]
    unfold globMatchHelper
    simp only [← ih, Takes]
    split_ifs with hstar hone
    · rw [any_eq_true]
      constructor
      · rintro ⟨rest, hrest, hmatch⟩
        obtain ⟨piece, rfl⟩ := (mem_tails _ _).mp hrest
        exact ⟨piece, rest, rfl, trivial, hmatch⟩
      · rintro ⟨piece, rest, rfl, -, hmatch⟩
        exact ⟨rest, (mem_tails _ _).mpr (suffix_append piece rest), hmatch⟩
    · constructor
      · intro h
        cases t with
        | nil => cases h
        | cons d t => exact ⟨[d], t, rfl, rfl, h⟩
      · rintro ⟨piece, rest, rfl, hpiece, hmatch⟩
        obtain ⟨d, rfl⟩ := length_eq_one_iff.mp hpiece
        exact hmatch
    · constructor
      · intro h
        cases t with
        | nil => cases h
        | cons d t =>
          rw [Bool.and_eq_true, beq_iff_eq] at h
          exact ⟨[c], t, by rw [h.1]; rfl, rfl, h.2⟩
      · rintro ⟨piece, rest, rfl, rfl, hmatch⟩
        exact Bool.and_eq_true_iff.mpr ⟨beq_self_eq_true c, hmatch⟩

theorem globMatch_iff (pattern text : String) : globMatch pattern text = true ↔ Matches pattern text :=
  globMatchHelper_iff pattern.toList text.toList

/-! ### The state is what the calls say -/

theorem runCalls_concat (calls : List RbacCall) (call : RbacCall) :
    runCalls (calls ++ [call]) = ((runCalls calls).perform call).2 := by simp [runCalls]

theorem defined_concat (calls : List RbacCall) (call : RbacCall) (roleName : String) :
    Defined (calls ++ [call]) roleName = (Defined calls roleName).or
      (call.created?.filter (·.name = roleName)) := by
  rw [Defined, filterMap_append, ← append_assoc, find?_append]
  congr 1
  cases hcall : call.created? with
  | none => simp [hcall]
  | some role => by_cases hname : role.name = roleName <;> simp [hcall, hname, Option.filter]

theorem lookup_createRole (role : Role) (m : RbacManager) (roleName : String) :
    (m.createRole role).2.roles.lookup roleName =
      (m.roles.lookup roleName).or ((some role).filter (·.name = roleName)) := by
  rw [createRole]
  by_cases hname : roleName = role.name
  · subst hname
    cases h : m.roles.lookup role.name with
    | none => simp [Option.filter]
    | some old => simp [h]
  · have hother : (some role).filter (·.name = roleName) = none := by
      simp [Option.filter, Ne.symm hname]
    rw [hother, Option.or_none]
    split_ifs
    · rfl
    · exact AList.lookup_insert_ne hname

theorem roles_assignRoleToUser (userId : UInt64) (roleName : String) (m : RbacManager) :
    (m.assignRoleToUser userId roleName).2.roles = m.roles := by
  rw [assignRoleToUser]
  split_ifs <;> rfl

theorem roles_revokeRoleFromUser (userId : UInt64) (roleName : String) (m : RbacManager) :
    (m.revokeRoleFromUser userId roleName).2.roles = m.roles := by
  rw [revokeRoleFromUser]
  split <;> rfl

theorem lookup_roles (calls : List RbacCall) (roleName : String) :
    (runCalls calls).roles.lookup roleName = Defined calls roleName := by
  induction calls using List.reverseRecOn with
  | nil =>
    by_cases hadmin : roleName = "admin"
    · subst hadmin
      rfl
    by_cases hread : roleName = "read_only"
    · subst hread
      rfl
    by_cases hanalyst : roleName = "analyst"
    · subst hanalyst
      rfl
    have hlookup : new.roles.lookup roleName = none := by
      rw [new, createDefaultRoles, lookup_insert_if, if_neg hanalyst, lookup_insert_if,
        if_neg hread, lookup_insert_if, if_neg hadmin]
      rfl
    have hdefined : Defined [] roleName = none := by
      simp [Defined, adminRole, readOnlyRole, analystRole, Ne.symm hadmin, Ne.symm hread, Ne.symm hanalyst]
    rw [hdefined]
    exact hlookup
  | append_singleton calls call ih =>
    rw [runCalls_concat, defined_concat, ← ih]
    cases call with
    | createRole role => exact lookup_createRole role _ roleName
    | assignRoleToUser userId name =>
      rw [perform, roles_assignRoleToUser]
      exact Option.or_none.symm
    | revokeRoleFromUser userId name =>
      rw [perform, roles_revokeRoleFromUser]
      exact Option.or_none.symm

/-- The names that a user holds. -/
def held (m : RbacManager) (userId : UInt64) : List String := (m.userRoles.lookup userId).getD []

variable {userId user : UInt64} {roleName name : String} {m : RbacManager}

theorem assigned_concat {calls : List RbacCall} {call : RbacCall} : Assigned (calls ++ [call]) userId roleName ↔
      (call = .assignRoleToUser userId roleName ∧ (Defined calls roleName).isSome) ∨
        (Assigned calls userId roleName ∧ call ≠ .revokeRoleFromUser userId roleName) := by
  constructor
  · rintro ⟨earlier, later, hcalls, hdefined, hkept⟩
    rcases eq_nil_or_concat later with rfl | ⟨later, last, rfl⟩
    · obtain ⟨rfl, hlast⟩ := append_inj' hcalls rfl
      exact Or.inl ⟨singleton_inj.mp hlast, hdefined⟩
    · rw [concat_eq_append, ← cons_append, ← append_assoc] at hcalls
      obtain ⟨rfl, hlast⟩ := append_inj' hcalls rfl
      obtain rfl := singleton_inj.mp hlast
      rw [concat_eq_append, mem_append, mem_singleton, not_or] at hkept
      exact Or.inr ⟨⟨earlier, later, rfl, hdefined, hkept.1⟩, Ne.symm hkept.2⟩
  · rintro (⟨rfl, hdefined⟩ | ⟨⟨earlier, later, rfl, hdefined, hkept⟩, hne⟩)
    · exact ⟨calls, [], rfl, hdefined, not_mem_nil⟩
    · refine ⟨earlier, later ++ [call], by simp, hdefined, ?_⟩
      rw [mem_append, mem_singleton, not_or]
      exact ⟨hkept, Ne.symm hne⟩

theorem held_insert (m : RbacManager) (user userId : UInt64) (names : List String) :
    held { m with userRoles := m.userRoles.insert user names } userId =
      if userId = user then names else held m userId := by
  rw [held, lookup_insert_if]
  split_ifs <;> rfl

theorem mem_held_assignRoleToUser : roleName ∈ held (m.assignRoleToUser user name).2 userId ↔
      (user = userId ∧ name = roleName ∧ (m.roles.lookup name).isSome) ∨ roleName ∈ held m userId := by
  rw [assignRoleToUser]
  cases m.roles.lookup name with
  | none => simp
  | some role =>
    have hadd : ∀ names : List String, roleName ∈ (if names.contains name then names else names ++ [name]) ↔
          name = roleName ∨ roleName ∈ names := by
      intro names
      split_ifs with hname <;> grind
    simp only [Option.isNone_some, Bool.false_eq_true, if_false, held_insert, Option.isSome_some, and_true]
    by_cases huser : userId = user
    · subst huser
      rw [if_pos rfl, hadd, held]
      simp
    · rw [if_neg huser]
      simp [Ne.symm huser]

theorem mem_held_revokeRoleFromUser : roleName ∈ held (m.revokeRoleFromUser user name).2 userId ↔
      roleName ∈ held m userId ∧ ¬(user = userId ∧ name = roleName) := by
  rw [revokeRoleFromUser]
  cases hroles : m.userRoles.lookup user with
  | none =>
    refine (and_iff_left_of_imp fun h hsame => ?_).symm
    rw [held, ← hsame.1, hroles] at h
    exact not_mem_nil h
  | some roles =>
    simp only [held_insert]
    by_cases huser : userId = user
    · subst huser
      have hheld : held m userId = roles := by rw [held, hroles, Option.getD_some]
      rw [if_pos rfl, mem_filter, bne_iff_ne, hheld, ne_comm]
      simp
    · simp [huser, Ne.symm huser]

theorem mem_held_iff (calls : List RbacCall) (userId : UInt64) (roleName : String) :
    roleName ∈ held (runCalls calls) userId ↔ Assigned calls userId roleName := by
  induction calls using List.reverseRecOn with
  | nil =>
    refine ⟨fun h => absurd h not_mem_nil, ?_⟩
    rintro ⟨earlier, later, hcalls, -⟩
    simp at hcalls
  | append_singleton calls call ih =>
    rw [runCalls_concat, assigned_concat, ← ih, ← lookup_roles]
    cases call with
    | createRole role =>
      have hsame : (createRole role (runCalls calls)).2.userRoles = (runCalls calls).userRoles := by
        rw [createRole]
        split_ifs <;> rfl
      rw [perform, held, hsame]
      simp [held]
    | assignRoleToUser user name =>
      rw [perform, mem_held_assignRoleToUser]
      simp only [RbacCall.assignRoleToUser.injEq]
      grind
    | revokeRoleFromUser user name =>
      rw [perform, mem_held_revokeRoleFromUser]
      simp

/-! ### Checks -/

theorem check_eq_ok (m : RbacManager) (userId : UInt64) (resource : String) (permission : Permission) :
    m.check userId resource permission = .ok () ↔
      ∃ roleName ∈ held m userId, ∃ role, m.roles.lookup roleName = some role ∧
        grantsTo role resource permission = true := by
  rw [check, held]
  cases m.userRoles.lookup userId with
  | none => simp
  | some roleNames =>
    have hgranted : ∀ roleName, (match m.roles.lookup roleName with
        | none => false
        | some role => grantsTo role resource permission) = true ↔
          ∃ role, m.roles.lookup roleName = some role ∧ grantsTo role resource permission = true := by
      intro roleName
      cases m.roles.lookup roleName with
      | none | some role => simp
    simp only [Option.getD_some, ← hgranted, ← any_eq_true]
    split_ifs with h
    · exact iff_of_true rfl h
    · exact iff_of_false nofun h

theorem grantsTo_iff {role : Role} {resource : String} {permission : Permission} :
    grantsTo role resource permission = true ↔
      ∃ pattern, (pattern, permission) ∈ role.grants ∧ globMatch pattern resource = true := by simp [grantsTo]

/-- **Permission checking equals its specification**: after any calls a check succeeds exactly if the
user is assigned a role that grants the permission on a pattern matching the resource, and a pattern
matches what can be split along it. -/
theorem check_iff (calls : List RbacCall) (userId : UInt64) (resource : String) (permission : Permission) :
    ((runCalls calls).check userId resource permission = .ok () ↔
      ∃ roleName role pattern, Assigned calls userId roleName ∧ Defined calls roleName = some role ∧
        (pattern, permission) ∈ role.grants ∧ globMatch pattern resource = true) ∧
      ∀ pattern, globMatch pattern resource = true ↔ Matches pattern resource := by
  refine ⟨?_, fun pattern => globMatch_iff pattern resource⟩
  rw [check_eq_ok]
  simp only [mem_held_iff, lookup_roles, grantsTo_iff]
  constructor
  · rintro ⟨roleName, hassigned, role, hdefined, pattern, hgrant, hmatch⟩
    exact ⟨roleName, role, pattern, hassigned, hdefined, hgrant, hmatch⟩
  · rintro ⟨roleName, role, pattern, hassigned, hdefined, hgrant, hmatch⟩
    exact ⟨roleName, hassigned, role, hdefined, pattern, hgrant, hmatch⟩

example : (runCalls [.assignRoleToUser 1 "analyst"]).check 1 "analytics.events" .write = .ok () := by rfl

end CenDB.Security
