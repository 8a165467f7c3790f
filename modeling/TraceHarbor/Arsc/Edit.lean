import TraceHarbor.Arsc.Reader

/-!
# Editing Resource Tables

`ArscUtil.removeResource`. Objects that several fields share are updated in all of them. Texts that
are only logged are left out, but not the lookups for them, which may end in an exception.
-/

namespace TraceHarbor.Arsc

open Lib

variable {S : Type}

/-! ## Resource ids -/

/-- `getPackageId`; the shift keeps the sign. -/
def getPackageId (resourceId : BitVec 32) : BitVec 32 := (resourceId &&& 0xff000000).sshiftRight 24

def getResourceTypeId (resourceId : BitVec 32) : BitVec 32 :=
  (resourceId &&& 0x00ff0000).sshiftRight 16

def getResourceEntryId (resourceId : BitVec 32) : ℕ := (resourceId &&& 0x0000ffff).toNat

def findResPackage (table : ResTable S) (packageId : BitVec 32) : Option ℕ :=
  (table.packages.getD []).findIdx? fun p => p.id = packageId

/-- The test of `findResType`: a type of the id that has the entry. -/
def ResType.found (resourceId : BitVec 32) (t : ResType S) : Option Bool :=
  if t.id.toInt = (getResourceTypeId resourceId).toInt then
    if getResourceEntryId resourceId < t.entryCount.toInt then do
      let offsets ← t.entryOffsets
      let offset ← offsets[getResourceEntryId resourceId]?
      return offset ≠ noEntryIndex
    else some false
  else some false

namespace ResPackage

def types (p : ResPackage S) : List (ResType S) :=
  (p.resTypeArray.getD []).filterMap fun
    | .typeSpec _ => none
    | .resType t => some t

/-- The loop of `findResType`. -/
def findAmong (resourceId : BitVec 32) : List (ResType S) → Option (List (ResType S))
  | [] => some []
  | t :: types => do
    let found ← t.found resourceId
    let rest ← findAmong resourceId types
    return if found then t :: rest else rest

def findResType (p : ResPackage S) (resourceId : BitVec 32) : Option (List (ResType S)) :=
  findAmong resourceId p.types

end ResPackage

/-- An update of the types that `findResType` returns. -/
def ResChunk.updateFound (resourceId : BitVec 32) (f : ResType S → Option (ResType S)) :
    ResChunk S → Option (ResChunk S)
  | .typeSpec s => some (.typeSpec s)
  | .resType t => do
    if ← t.found resourceId then return .resType (← f t)
    else return .resType t

namespace ResPackage

def updateFound (p : ResPackage S) (resourceId : BitVec 32) (f : ResType S → Option (ResType S)) :
    Option (ResPackage S) := do
  let chunks ← (p.resTypeArray.getD []).mapM (ResChunk.updateFound resourceId f)
  return { p with resTypeArray := p.resTypeArray.map fun _ => chunks }

end ResPackage

/-- `entryTable!![entryId]!!`. -/
def ResType.entryAt (t : ResType S) (entryId : ℕ) : Option (ResEntry S) := do
  let table ← t.entryTable
  let slot ← table[entryId]?
  slot

namespace ResTable

def updatePackage (table : ResTable S) (i : ℕ) (f : ResPackage S → Option (ResPackage S)) :
    Option (ResTable S) := do
  let packages ← table.packages
  let p ← packages[i]?
  let p ← f p
  return { table with packages := some (packages.set i p) }

end ResTable

variable [Text S] [DecidableEq S]

/-! ## Removal -/

/-- The name of the last entry that was removed, for the log. -/
def ResPackage.removedName (p : ResPackage S) (entries : List (ResEntry S)) : Option S :=
  let index := (entries.getLast?.map fun e => e.stringPoolIndex).getD (-1)
  if index ≠ -1 then p.resNamePool.bind fun pool => lookup pool index else some Text.empty

/-- The part of `removeResource` for the package. -/
def ResPackage.removeResource (p : ResPackage S) (resourceId : BitVec 32) :
    Option (ResPackage S) := do
  let entryId := getResourceEntryId resourceId
  let types ← p.findResType resourceId
  let entries ← types.mapM fun t => t.entryAt entryId
  let p ← p.updateFound resourceId fun t => do (← t.removeEntry entryId).refresh
  let _ ← p.removedName entries
  let p ← p.shrinkResNameStringPool
  p.refresh

def removeResource (table : ResTable S) (resourceId : BitVec 32) : Option (ResTable S) :=
  match findResPackage table (getPackageId resourceId) with
  | none => some table
  | some i => do
    let table ← table.updatePackage i fun p => p.removeResource resourceId
    return table.refresh

end TraceHarbor.Arsc
