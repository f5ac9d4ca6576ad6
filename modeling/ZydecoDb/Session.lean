import ZydecoDb.Document.KeyLayout
import Mathlib.Data.List.DropRight

namespace ZydecoDb

open Lib

structure Tenant where
  bytes : Bytes
  length_eq : bytes.length = 16
deriving DecidableEq

def Tenant.zero : Tenant := ⟨List.replicate 16 0, rfl⟩

inductive KeyRole
  | readOnly
  | readWrite
  | admin
deriving DecidableEq

structure SessionState where
  authenticated : Bool
  keyId : Option Bytes
  secretHash : Option Bytes
  role : Option KeyRole
  tenant : Tenant
  allowedPrefixes : List Bytes
deriving DecidableEq

def SessionState.anonymous : SessionState := ⟨false, none, none, none, .zero, []⟩

structure SecurityRuntime where
  requireAuth : Bool
  readOnly : Bool
  legacySingleTenant : Bool

def tenantPrefix (session : SessionState) (legacySingleTenant : Bool) : Bytes :=
  if legacySingleTenant = true ∧ session.tenant = .zero then [ksUser]
  else ksUser :: session.tenant.bytes

def storageKey (session : SessionState) (clientKey : Bytes) (legacySingleTenant : Bool) : Bytes :=
  tenantPrefix session legacySingleTenant ++ clientKey

def reservedClientKey : Bytes → Bool
  | a :: b :: _ => (a == recDoc || a == recIndex) && b == 0x00
  | _ => false

def keyPrefixAllowed (session : SessionState) (clientKey : Bytes) : Bool :=
  session.allowedPrefixes.isEmpty || session.allowedPrefixes.any fun p => p.isPrefixOf clientKey

def collectionPrefixAllowed (session : SessionState) (collection : Bytes) : Bool :=
  session.allowedPrefixes.isEmpty || session.allowedPrefixes.any fun p =>
    p.isPrefixOf collection || collection == p.rdropWhile (· == 0x3A)

end ZydecoDb
