import Viengoos.Kernel.Folio

/-!
# Requests of clients

The handlers of `server.c`, from where the target of the message has been looked up and the
arguments are unmarshalled.
-/

namespace Viengoos

open Outcome

/-- The error codes of replies. -/
inductive Errno
  | einval
deriving DecidableEq, Repr

/-- The types, in the order of `enum vg_cap_type`. -/
def CapType.all : List CapType :=
  [.void, .page, .rpage, .cappage, .rcappage, .folio, .activity, .activityControl, .thread,
    .messenger, .rmessenger]

/-- The type with a number from `VG_CAP_TYPE_MIN` to `VG_CAP_TYPE_MAX`. -/
def CapType.ofNumber (n : ℕ) : Option CapType := CapType.all[n]?

namespace Kernel

/-- The arguments of `VG_folio_object_alloc`: who asks, the object the message is sent to, and what
it carries. The type is a number. -/
structure ObjectAlloc where
  principal : ℕ
  target : ℕ
  idx : ℕ
  type : ℕ
  policy : ObjectPolicy

/-- `VG_folio_object_alloc`. The reply has a capability to the new object and a weak one. -/
def vgFolioObjectAlloc (env : Env) (r : ObjectAlloc) (s : Kernel) :
    Except Fault (Kernel × Except Errno (Cap × Cap)) :=
  if (s.desc r.target).map Desc.type ≠ some .folio then pure (s, .error .einval)
  else if folioObjects ≤ r.idx then pure (s, .error .einval)
  else
    match CapType.ofNumber r.type with
    | none => pure (s, .error .einval)
    | some type => do
      let (s, cap) ← s.folioObjectAlloc env r.principal r.target r.idx type r.policy
      pure (s, .ok (cap, { cap with type := cap.type.weaken }))

end Kernel

end Viengoos
