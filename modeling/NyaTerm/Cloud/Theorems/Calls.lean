import NyaTerm.Cloud.Conflict
import NyaTerm.Cloud.Theorems.Heads

open Program

namespace NyaTerm

variable [SnapshotFormat]

-- Calls that change neither what is stored remotely nor what is stored locally.
def CloudRequest.isPassive : CloudRequest → Bool
  | write .. | delete _ | applyChecked .. | persistState _ | recordReceipt .. => false
  | _ => true

namespace CloudSync

section Passive

attribute [local simp] CloudRequest.isPassive.eq_6 ask

@[simp]
theorem passive_readRecords : readRecords.Only (·.isPassive) := by
  refine only_readRecords.mono fun c hc => ?_
  rcases hc with rfl | ⟨path, _, rfl⟩ <;> rfl

@[simp]
theorem passive_loadSyncPointer : loadSyncPointer.Only (·.isPassive) := by
  refine only_loadSyncPointer.mono fun c hc => ?_
  rcases hc with rfl | ⟨bytes, rfl⟩ <;> rfl

@[simp]
theorem passive_readCompatibility (heads : List RemoteSyncPointer) :
    (readCompatibility heads).Only (·.isPassive) := by
  refine only_readCompatibility.mono fun c hc => ?_
  rcases hc with rfl | ⟨bytes, rfl⟩ <;> rfl

@[simp]
theorem passive_readDeviceHeads : readDeviceHeads.Only (·.isPassive) := by
  simp [readDeviceHeads]

@[simp]
theorem passive_readHeads : readHeads.Only (·.isPassive) := by
  simp [readHeads]

@[simp]
theorem passive_protectedRevisions : protectedRevisions.Only (·.isPassive) := by
  simp [protectedRevisions]

@[simp]
theorem passive_portable (r : Except PortableSnapshotError α) :
    (portable r).Only (·.isPassive) := by
  cases r <;> simp [portable]

@[simp]
theorem passive_decryptCause : decryptCause.Only (·.isPassive) := by
  simp [decryptCause]
  intros
  split <;> simp

@[simp]
theorem passive_decodeRemoteSnapshot (bytes : Bytes) (revision : String) :
    (decodeRemoteSnapshot bytes revision).Only (·.isPassive) := by
  simp [decodeRemoteSnapshot]
  intros
  split <;> simp

@[simp]
theorem passive_decodeAndValidate (bytes : Bytes) (pointer : RemoteSyncPointer) :
    (decodeAndValidate bytes pointer).Only (·.isPassive) := by
  simp [decodeAndValidate]

@[simp]
theorem passive_readSnapshotForPointer (pointer : RemoteSyncPointer) :
    (readSnapshotForPointer pointer).Only (·.isPassive) := by
  simp [readSnapshotForPointer]
  intros
  split <;> simp

@[simp]
theorem passive_verifyWrittenSnapshot (pointer : RemoteSyncPointer) (written : Bytes) :
    (verifyWrittenSnapshot pointer written).Only (·.isPassive) := by
  simp [verifyWrittenSnapshot]
  intros
  split <;> simp

@[simp]
theorem passive_readCurrent : readCurrent.Only (·.isPassive) := by
  simp [readCurrent]
  intros
  split <;> simp

@[simp]
theorem passive_ensureRemoteHeadUnchanged (expected : Option RemoteSyncPointer) :
    (ensureRemoteHeadUnchanged expected).Only (·.isPassive) := by
  simp [ensureRemoteHeadUnchanged]

@[simp]
theorem passive_ensureEnabled (options : LocalCloudSyncOptions) :
    (ensureEnabled options).Only (·.isPassive) := by
  simp [ensureEnabled]

@[simp]
theorem passive_ensureRemoteLayout : ensureRemoteLayout.Only (·.isPassive) := by
  simp [ensureRemoteLayout]

@[simp]
theorem passive_prepareSync (prepared : Option PreparedSync) :
    (prepareSync prepared).Only (·.isPassive) := by
  cases prepared <;> simp [prepareSync]

@[simp]
theorem passive_isFixed (snapshot : RawPortableSnapshot) :
    (isFixed snapshot).Only (·.isPassive) := by
  simp [isFixed]

@[simp]
theorem passive_repairs (pointer : RemoteSyncPointer) (current : RawPortableSnapshot) :
    (repairs pointer current).Only (·.isPassive) := by
  simp [repairs]

@[simp]
theorem passive_inspectBranches (pointers : List RemoteSyncPointer) :
    (inspectBranches pointers).Only (·.isPassive) := by
  induction pointers
  case nil => simp [inspectBranches]
  case cons hi =>
    simp [inspectBranches, hi]
    intros
    split <;> simp

theorem passive_authenticateClocks (seen : List String) (heads : List RemoteSyncPointer) :
    (authenticateClocks seen heads).Only (·.isPassive) := by
  induction heads generalizing seen <;> simp_all [authenticateClocks]

@[simp]
theorem passive_authenticatedCommitClocks (latest : Option RemoteSyncPointer) :
    (authenticatedCommitClocks latest).Only (·.isPassive) := by
  simp [authenticatedCommitClocks, passive_authenticateClocks]

end Passive

end CloudSync

end NyaTerm
