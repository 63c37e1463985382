import EosShard.Dictionary.Reader
import EosShard.Lifetime
import EosShard.ShardFile
import EosShard.V1.Traversal

/-!
# Clients of the library

A client calls the library in any order: it opens shard files, gets records, blobs, streams and
dictionaries from them, takes references to what it can reach, and drops what it holds. The callback of
`records_foreach` is part of the client; the reference of the loop is dropped with `unref` like the others.

* `Allowed` is what the library asks of its clients: the objects they pass are reached from what they
  hold, and they drop only what they hold. Three functions ask for more: `records_foreach` of a V1 shard
  for names of 20 bytes, `load_as_dictionary` for a blob that is not compressed, and a dictionary for
  somebody else who keeps its shard file. Of `open` it asks for a number that is not in use.
* `Sound.step` is one call, `obeys_safe` every run: no object is used after it has been freed, no
  reference is dropped twice, and what is alive is just what is reached.
* `all_freed_iff`: at the end everything has been freed, once, unless a V1 listing has lost records or a
  dictionary has been left behind.
* `lookupKey_iff`: a dictionary reads from its shard file exactly as long as somebody keeps that.
-/

namespace EosShard

open EosShard.Found EosShard.Found.Memory

/-! ## Calls -/

/-- The heap, the references that the client holds, and those that a function has lost. -/
structure Client where
  objects : Objects
  held : List ℕ
  lost : List ℕ

/-- A client before its first call. -/
def Client.start : Client := ⟨⟨[], []⟩, [], []⟩

/-- A call of the library, with the outcome that the file decides. -/
inductive ClientCall
  | openShardFile (fd : ℕ)
  | ref (a : ℕ)
  | unref (a : ℕ)
  | findRecord (self : ℕ) (o : RecordOutcome)
  | listRecordsV1 (self : ℕ) (os : List RecordOutcome)
  | listRecordsV2 (self : ℕ) (os : List RecordOutcome)
  | foreachNextV1 (self : ℕ) (o : RecordOutcome)
  | foreachNextV2 (self : ℕ) (o : RecordOutcome)
  | lookupBlob (record : ℕ) (o : BlobOutcome)
  | listBlobsV1 (record : ℕ)
  | listBlobsV2 (record : ℕ) (os : List BlobOutcome)
  | getStream (blob : ℕ) (hasOffs compressed : Bool)
  | readStream (stream : ℕ)
  | loadContents (blob : ℕ)
  | loadAsDictionary (blob : ℕ) (compressed : Bool) (o : DictionaryOutcome)
  | lookupKey (dictionary : ℕ)

namespace Client

/-- The client holds what a call has returned. -/
def hold (c : Client) (p : Objects × Option ℕ) : Client := ⟨p.1, p.2.toList ++ c.held, c.lost⟩

/-- One call; `none` if the library uses what has been freed or closed, or `NULL`, or fails an assertion. -/
def step (c : Client) : ClientCall → Option Client
  | .openShardFile fd => (openShardFile c.objects fd).map fun p => c.hold (p.1, some p.2)
  | .ref a => (c.objects.retain a).map fun m => c.hold (m, some a)
  | .unref a => (c.objects.release a).map fun m => ⟨m, c.held.erase a, c.lost⟩
  | .findRecord self o => (findRecord c.objects self o).map c.hold
  | .listRecordsV1 self os =>
      (listRecordObjectsV1 c.objects self os).map fun p => ⟨p.1, p.2.1 ++ c.held, p.2.2 ++ c.lost⟩
  | .listRecordsV2 self os =>
      (listRecordObjectsV2 c.objects self os).map fun p => ⟨p.1, p.2 ++ c.held, c.lost⟩
  | .foreachNextV1 self o => (foreachNextV1 c.objects self o).map c.hold
  | .foreachNextV2 self o => (foreachNextV2 c.objects self o).map c.hold
  | .lookupBlob record o => (lookupBlobObject c.objects record o).map c.hold
  | .listBlobsV1 record =>
      (listBlobObjectsV1 c.objects record).map fun p => ⟨p.1, p.2 ++ c.held, c.lost⟩
  | .listBlobsV2 record os =>
      (listBlobObjectsV2 c.objects record os).map fun p => ⟨p.1, p.2.reduceOption ++ c.held, c.lost⟩
  | .getStream blob hasOffs compressed =>
      (getStreamObject c.objects blob hasOffs compressed).map c.hold
  | .readStream stream => do
      let shardFile ← streamShardFile c.objects stream
      (readData c.objects shardFile).map fun _ => c
  | .loadContents blob => do
      let shardFile ← shardFileOf c.objects blob
      (readData c.objects shardFile).map fun _ => c
  | .loadAsDictionary blob compressed o =>
      (loadAsDictionaryObject c.objects blob compressed o).map fun p =>
        ⟨p.1, p.2.1.toList ++ c.held, p.2.2.toList ++ c.lost⟩
  | .lookupKey dictionary => do
      let shardFile ← dictionaryShardFile c.objects dictionary
      (readData c.objects shardFile).map fun _ => c

/-- The client can get at an object of a kind. -/
def CanUse (c : Client) (p : Object → Prop) (a : ℕ) : Prop :=
  c.objects.Reached c.held a ∧ ∃ d, c.objects.dataAt a = some d ∧ p d

/-- What the library asks of a client, and of `open`. -/
def Allowed (c : Client) : ClientCall → Prop
  | .openShardFile fd => shardFileOn c.objects fd = none
  | .ref a => c.objects.Reached c.held a
  | .unref a => a ∈ c.held
  | .findRecord self _ => c.CanUse Object.IsShardFile self
  | .listRecordsV1 self _ => c.CanUse Object.IsShardFile self
  | .listRecordsV2 self _ => c.CanUse Object.IsShardFile self
  | .foreachNextV1 self o => c.CanUse Object.IsShardFile self ∧ o.IsRecord
  | .foreachNextV2 self _ => c.CanUse Object.IsShardFile self
  | .lookupBlob record _ => c.CanUse Object.IsRecord record
  | .listBlobsV1 record => c.CanUse Object.IsRecord record
  | .listBlobsV2 record _ => c.CanUse Object.IsRecord record
  | .getStream blob _ _ => c.CanUse Object.IsBlob blob
  | .readStream stream => c.CanUse Object.IsStream stream
  | .loadContents blob => c.CanUse Object.IsBlob blob
  | .loadAsDictionary blob compressed _ => c.CanUse Object.IsBlob blob ∧ compressed = false
  | .lookupKey dictionary => ∃ fd shardFile, c.CanUse (· = .dictionary fd shardFile) dictionary ∧
      c.objects.Reached c.held shardFile

/-- All calls are allowed, each in the state the earlier ones lead to. -/
def Obeys : Client → List ClientCall → Prop
  | _, [] => True
  | c, call :: calls => c.Allowed call ∧ ∀ c', c.step call = some c' → c'.Obeys calls

/-- The counts are those of the references that the client holds and that have been lost. -/
def Sound (c : Client) : Prop := EosShard.Sound c.objects (c.held ++ c.lost)

/-! ## One call -/

/-- What the client reaches is reached. -/
theorem reached_append {c : Client} {a : ℕ} (h : c.objects.Reached c.held a) :
    c.objects.Reached (c.held ++ c.lost) a := by
  obtain ⟨b, hb, hreach⟩ := h
  exact ⟨b, List.mem_append_left _ hb, hreach⟩

/-- What the client can use is what it is. -/
theorem CanUse.is {c : Client} {p : Object → Prop} {a : ℕ} (h : c.CanUse p a) :
    Is c.objects p a := by
  obtain ⟨-, d, hd, hp⟩ := h
  exact is_of_dataAt hd hp

namespace Sound

variable {c : Client}

/-- What has been returned is held. -/
theorem hold {m : Objects} {o : Option ℕ} (h : EosShard.Sound m (o.toList ++ (c.held ++ c.lost))) :
    (c.hold (m, o)).Sound := by
  show EosShard.Sound m ((o.toList ++ c.held) ++ c.lost)
  rwa [List.append_assoc]

/-- What has been returned is held, and what has been left behind is lost. -/
theorem holdLost {m : Objects} {l lost : List ℕ}
    (h : EosShard.Sound m (l ++ (lost ++ (c.held ++ c.lost)))) :
    (⟨m, l ++ c.held, lost ++ c.lost⟩ : Client).Sound := by
  refine EosShard.Sound.perm h ?_
  show (l ++ (lost ++ (c.held ++ c.lost))).Perm ((l ++ c.held) ++ (lost ++ c.lost))
  rw [List.append_assoc]
  exact (List.perm_append_comm_assoc _ _ _).append_left l

/-- What has been returned in a list is held. -/
theorem holdAll {m : Objects} {l : List ℕ} (h : EosShard.Sound m (l ++ (c.held ++ c.lost))) :
    (⟨m, l ++ c.held, c.lost⟩ : Client).Sound := by
  show EosShard.Sound m ((l ++ c.held) ++ c.lost)
  rwa [List.append_assoc]

/-- The reader of a shard file that can be used points back to it. -/
theorem implShardFile (h : c.Sound) {self : ℕ} (hu : c.CanUse Object.IsShardFile self) :
    implShardFile c.objects self = some self :=
  EosShard.Sound.implShardFile h (reached_append hu.1) hu.is

/-- The shard file of a record or a blob that can be used. -/
theorem shardFileOf (h : c.Sound) {p : Object → Prop} {a : ℕ} (hu : c.CanUse p a)
    (hp : ∀ d, p d → d.IsRecord ∨ d.IsBlob) :
    ∃ shardFile, shardFileOf c.objects a = some shardFile ∧
      c.objects.Reached (c.held ++ c.lost) shardFile ∧ Is c.objects Object.IsShardFile shardFile := by
  obtain ⟨hr, d, hd, hpd⟩ := hu
  exact EosShard.Sound.shardFileOf h (reached_append hr) hd (hp d hpd)

/-- The descriptor of a shard file that is reached is open. -/
theorem readData (h : c.Sound) {shardFile : ℕ}
    (hr : c.objects.Reached (c.held ++ c.lost) shardFile) :
    readData c.objects shardFile = some () := by
  obtain ⟨d, hd⟩ := h.balanced.dataAt_of_reached hr
  rw [EosShard.readData, hd]
  rfl

/-- The construction of a record of a shard file that can be used. -/
theorem recordNew (h : c.Sound) {self : ℕ} (hu : c.CanUse Object.IsShardFile self)
    (o : RecordOutcome) :
    ∃ m r, recordNew c.objects self o = some (m, r) ∧ (c.hold (m, r)).Sound ∧
      (r.isSome ↔ o.IsRecord) := by
  obtain ⟨m, r, hm, hs, -, hsome⟩ :=
    EosShard.Sound.recordNew h (reached_append hu.1) hu.is o
  exact ⟨m, r, hm, hold hs, hsome⟩

/-- The stream reads from a shard file that is reached. -/
theorem streamShardFile (h : c.Sound) {stream : ℕ} (hu : c.CanUse Object.IsStream stream) :
    ∃ shardFile, streamShardFile c.objects stream = some shardFile ∧
      c.objects.Reached (c.held ++ c.lost) shardFile := by
  obtain ⟨hr, d, hd, hkind⟩ := hu
  have hr' := reached_append hr
  rcases hkind with ⟨blob, shardFile, rfl⟩ | ⟨base, rfl⟩
  · obtain ⟨d', hd'⟩ := h.balanced.dataAt_of_reached (hr'.owned hd List.mem_cons_self)
    refine ⟨shardFile, ?_, hr'.owned hd (List.mem_cons_of_mem _ List.mem_cons_self)⟩
    simp [EosShard.streamShardFile, hd, hd']
  · have hbase := hr'.owned hd List.mem_cons_self
    obtain ⟨d₁, hd₁⟩ := h.balanced.dataAt_of_reached hbase
    obtain ⟨blob, shardFile, rfl⟩ := (h.shaped stream _ hd).2 d₁ hd₁
    obtain ⟨d', hd'⟩ := h.balanced.dataAt_of_reached (hbase.owned hd₁ List.mem_cons_self)
    refine ⟨shardFile, ?_, hbase.owned hd₁ (List.mem_cons_of_mem _ List.mem_cons_self)⟩
    simp [EosShard.streamShardFile, hd, hd₁, hd']

/-- A dictionary reads from its shard file exactly as long as that is reached. Else a shard file that has
its number was opened later. -/
theorem dictionaryShardFile_iff (h : c.Sound) {dictionary fd shardFile : ℕ}
    (hd : c.objects.dataAt dictionary = some (.dictionary fd shardFile)) :
    (dictionaryShardFile c.objects dictionary = some shardFile ↔
        c.objects.Reached (c.held ++ c.lost) shardFile) ∧
      ∀ a, dictionaryShardFile c.objects dictionary = some a → shardFile ≤ a := by
  obtain ⟨his, hfirst⟩ := h.shaped dictionary _ hd
  have hon : ∀ a, dictionaryShardFile c.objects dictionary = some a ↔
      descriptorOf c.objects a = some fd := by
    intro a
    simp only [EosShard.dictionaryShardFile, hd]
    exact h.shaped.shardFileOn_eq_some_iff
  simp only [hon, descriptorOf_eq_some_iff]
  refine ⟨⟨?_, fun hr => ?_⟩, ?_⟩
  · rintro ⟨d, hd', -⟩
    exact h.balanced.reached_of_dataAt Object.rank h.shaped.rank_lt hd'
  · obtain ⟨d, hd'⟩ := h.balanced.dataAt_of_reached hr
    exact ⟨d, hd', his.2 d hd'⟩
  · rintro a ⟨d, hd', hfd⟩
    by_contra hlt
    exact (hfirst a (not_le.mp hlt)).2 d hd' hfd

/-- **An allowed call is safe**, and leaves the counts right. -/
theorem step (h : c.Sound) {call : ClientCall} (ha : c.Allowed call) :
    ∃ c', c.step call = some c' ∧ c'.Sound := by
  cases call with
  | openShardFile fd =>
      obtain ⟨m, a, hm, hs, -⟩ := EosShard.Sound.openShardFile h ha
      exact ⟨_, by rw [Client.step, hm]; rfl, hold hs⟩
  | ref a =>
      obtain ⟨m, hm, hs, -⟩ := EosShard.Sound.retain h (reached_append ha)
      exact ⟨_, by rw [Client.step, hm]; rfl, hold hs⟩
  | unref a =>
      have hp : (c.held ++ c.lost).Perm (a :: (c.held.erase a ++ c.lost)) :=
        (List.perm_cons_erase ha).append_right c.lost
      obtain ⟨m, hm, hs, -⟩ := (EosShard.Sound.perm h hp).release
      exact ⟨⟨m, c.held.erase a, c.lost⟩, by rw [Client.step, hm]; rfl, hs⟩
  | findRecord self o =>
      obtain ⟨m, r, hm, hs, -⟩ := h.recordNew ha o
      exact ⟨_, by simp [Client.step, findRecord, h.implShardFile ha, hm], hs⟩
  | listRecordsV1 self os =>
      obtain ⟨m, l, lost, hm, hs, -, -⟩ := EosShard.Sound.listLoopV1 (l := []) h
        (reached_append ha.1) ha.is os
      refine ⟨⟨m, l ++ c.held, lost ++ c.lost⟩, ?_, holdLost hs⟩
      simp [Client.step, listRecordObjectsV1, h.implShardFile ha, hm]
  | listRecordsV2 self os =>
      obtain ⟨m, l, hm, hs, -⟩ := EosShard.Sound.listLoopV2 h (reached_append ha.1) ha.is os
      refine ⟨⟨m, l ++ c.held, c.lost⟩, ?_, holdAll hs⟩
      simp [Client.step, listRecordObjectsV2, h.implShardFile ha, hm]
  | foreachNextV1 self o =>
      obtain ⟨hu, ho⟩ := ha
      obtain ⟨m, r, hm, hs, hsome⟩ := h.recordNew hu o
      obtain ⟨r, rfl⟩ := Option.isSome_iff_exists.mp (hsome.mpr ho)
      exact ⟨_, by simp [Client.step, foreachNextV1, h.implShardFile hu, hm], hs⟩
  | foreachNextV2 self o =>
      obtain ⟨m, r, hm, hs, -⟩ := h.recordNew ha o
      exact ⟨_, by simp [Client.step, foreachNextV2, h.implShardFile ha, hm], hs⟩
  | lookupBlob record o =>
      obtain ⟨shardFile, hshard, hr, his⟩ := h.shardFileOf ha fun _ => Or.inl
      obtain ⟨m, b, hm, hs, -⟩ := EosShard.Sound.blobNew h hr his o
      refine ⟨_, ?_, hold hs⟩
      simp [Client.step, lookupBlobObject, hshard, EosShard.Sound.implShardFile h hr his, hm]
  | listBlobsV1 record =>
      obtain ⟨hr, d, hd, hkind⟩ := ha
      obtain ⟨m, l, hm, hs, -⟩ :=
        EosShard.Sound.listBlobObjectsV1 h (reached_append hr) hd hkind
      exact ⟨_, by rw [Client.step, hm]; rfl, holdAll hs⟩
  | listBlobsV2 record os =>
      obtain ⟨shardFile, hshard, hr, his⟩ := h.shardFileOf ha fun _ => Or.inl
      obtain ⟨m, l, hm, hs, -⟩ := EosShard.Sound.listBlobsLoopV2 (l := []) h hr his os
      refine ⟨⟨m, l.reduceOption ++ c.held, c.lost⟩, ?_, holdAll hs⟩
      simp [Client.step, listBlobObjectsV2, hshard, EosShard.Sound.implShardFile h hr his, hm]
  | getStream blob hasOffs compressed =>
      obtain ⟨hr, d, hd, hkind⟩ := ha
      obtain ⟨m, st, hm, hs, -⟩ :=
        EosShard.Sound.getStreamObject h (reached_append hr) hd hkind hasOffs compressed
      exact ⟨_, by rw [Client.step, hm]; rfl, hold hs⟩
  | readStream stream =>
      obtain ⟨shardFile, hshard, hr⟩ := h.streamShardFile ha
      exact ⟨c, by simp [Client.step, hshard, h.readData hr], h⟩
  | loadContents blob =>
      obtain ⟨shardFile, hshard, hr, -⟩ := h.shardFileOf ha fun _ => Or.inr
      exact ⟨c, by simp [Client.step, hshard, h.readData hr], h⟩
  | loadAsDictionary blob compressed o =>
      obtain ⟨⟨hr, d, hd, hkind⟩, rfl⟩ := ha
      obtain ⟨m, a, lost, hm, hs, -, -⟩ :=
        EosShard.Sound.loadAsDictionaryObject h (reached_append hr) hd hkind o
      exact ⟨_, by rw [Client.step, hm]; rfl, holdLost hs⟩
  | lookupKey dictionary =>
      obtain ⟨fd, shardFile, ⟨-, d, hd, rfl⟩, hr⟩ := ha
      have hdict := (h.dictionaryShardFile_iff hd).1.mpr (reached_append hr)
      exact ⟨c, by simp [Client.step, hdict, h.readData (reached_append hr)], h⟩

end Sound

/-! ## A client -/

/-- A call that is allowed, in front of calls that obey. -/
theorem obeys_cons {c c' : Client} {call : ClientCall} {calls : List ClientCall}
    (ha : c.Allowed call) (hstep : c.step call = some c') (h : c'.Obeys calls) :
    c.Obeys (call :: calls) := by
  refine ⟨ha, fun c₁ hc₁ => ?_⟩
  obtain rfl : c' = c₁ := Option.some.inj (hstep.symm.trans hc₁)
  exact h

/-- The first calls of a client that obeys. -/
theorem Obeys.of_append {c : Client} {calls calls' : List ClientCall}
    (h : c.Obeys (calls ++ calls')) : c.Obeys calls := by
  induction calls generalizing c with
  | nil => trivial
  | cons call calls ih => exact ⟨h.1, fun c' hc' => ih (h.2 c' hc')⟩

/-- A client gets the data of a record as a stream and as a dictionary, and drops the shard file, the
record and the blob before it reads. Then it opens another shard file, which gets the same descriptor. -/
def readingCalls : List ClientCall :=
  [.openShardFile 3, .findRecord 0 (.record .absent .blob), .unref 0, .ref 3, .getStream 3 true true,
    .loadAsDictionary 3 false .absent, .loadAsDictionary 3 false .dictionary, .unref 2, .unref 3,
    .readStream 5, .lookupKey 6, .unref 5, .openShardFile 3]

/-- It drops what it still has. -/
def droppingCalls : List ClientCall := [.unref 6, .unref 7]

/-- The client obeys. -/
theorem obeys_readingCalls : start.Obeys (readingCalls ++ droppingCalls) := by
  refine obeys_cons rfl rfl ?_
  refine obeys_cons ?_ rfl ?_
  · exact ⟨reached_of_mem List.mem_cons_self, _, rfl, _, _, rfl⟩
  refine obeys_cons ?_ rfl ?_
  · exact List.mem_cons_of_mem _ List.mem_cons_self
  refine obeys_cons ?_ rfl ?_
  · exact reached_of_mem_reach (n := 1) (by decide)
  refine obeys_cons ?_ rfl ?_
  · exact ⟨reached_of_mem List.mem_cons_self, _, rfl, _, rfl⟩
  refine obeys_cons ?_ rfl ?_
  · exact ⟨⟨reached_of_mem_reach (n := 1) (by decide), _, rfl, _, rfl⟩, rfl⟩
  refine obeys_cons ?_ rfl ?_
  · exact ⟨⟨reached_of_mem_reach (n := 1) (by decide), _, rfl, _, rfl⟩, rfl⟩
  refine obeys_cons (show 2 ∈ [6, 5, 3, 2] by decide) rfl ?_
  refine obeys_cons (show 3 ∈ [6, 5, 3] by decide) rfl ?_
  -- the stream keeps the blob, and the blob the shard file
  refine obeys_cons ?_ rfl ?_
  · exact ⟨reached_of_mem_reach (n := 0) (by decide), _, rfl, Or.inr ⟨_, rfl⟩⟩
  refine obeys_cons ?_ rfl ?_
  · exact ⟨_, _, ⟨reached_of_mem List.mem_cons_self, _, rfl, rfl⟩,
      reached_of_mem_reach (n := 3) (by decide)⟩
  refine obeys_cons (show 5 ∈ [6, 5] by decide) rfl ?_
  -- the descriptor has been closed, and its number is free again
  refine obeys_cons rfl rfl ?_
  refine obeys_cons (show 6 ∈ [7, 6] by decide) rfl ?_
  exact obeys_cons (show 7 ∈ [7] by decide) rfl trivial

/-! ## Runs -/

/-- Before the first call the counts are right. -/
theorem sound_start : start.Sound :=
  ⟨balanced_empty, fun _ _ hd => by cases hd⟩

/-- Every run of a client that obeys goes through, and leaves the counts right. -/
theorem Sound.run {c : Client} {calls : List ClientCall} (h : c.Sound) (ho : c.Obeys calls) :
    ∃ c', runActions Client.step c calls = some c' ∧ c'.Sound := by
  induction calls generalizing c with
  | nil => exact ⟨c, rfl, h⟩
  | cons call calls ih =>
      obtain ⟨hallowed, hrest⟩ := ho
      obtain ⟨c₁, hc₁, h₁⟩ := h.step hallowed
      obtain ⟨c', hc', h'⟩ := ih h₁ (hrest c₁ hc₁)
      exact ⟨c', runActions_cons_eq_some_iff.mpr ⟨c₁, hc₁, hc'⟩, h'⟩

/-- A V1 listing loses the records in front of one that cannot be constructed, and a dictionary without
a filter is lost. -/
def Loses : ClientCall → Prop
  | .listRecordsV1 _ os => ¬ ((∀ o ∈ os, o.IsRecord) ∨ ∀ o ∈ os.head?, ¬ o.IsRecord)
  | .loadAsDictionary _ _ o => o = .leaked
  | _ => False

/-- **A dictionary reads from its shard file exactly as long as somebody keeps that**: it has a copy of
the number of the descriptor, and keeps nothing. Afterwards the number is out of use, or that of a shard
file that was opened later. -/
theorem lookupKey_iff {calls : List ClientCall} {c : Client} (h : start.Obeys calls)
    (hrun : runActions step start calls = some c) {dictionary fd shardFile : ℕ}
    (hd : c.objects.dataAt dictionary = some (.dictionary fd shardFile)) :
    (dictionaryShardFile c.objects dictionary = some shardFile ↔
        c.objects.Reached (c.held ++ c.lost) shardFile) ∧
      ∀ a, dictionaryShardFile c.objects dictionary = some a → shardFile ≤ a := by
  obtain ⟨c', hc', hs⟩ := sound_start.run h
  obtain rfl : c = c' := Option.some.inj (hrun.symm.trans hc')
  exact hs.dictionaryShardFile_iff hd

/-- The dictionary outlives the shard file, and reads from the one that was opened later. -/
theorem lookupKey_readingCalls : ∃ c, runActions step start readingCalls = some c ∧ c.held = [7, 6] ∧
    dictionaryShardFile c.objects 6 = some 7 ∧ ¬ c.objects.Reached (c.held ++ c.lost) 0 ∧ 0 ≤ 7 := by
  obtain ⟨c, hc⟩ : ∃ c, runActions step start readingCalls = some c := ⟨_, rfl⟩
  have hfacts : (runActions step start readingCalls).map
      (fun c => (c.held, c.objects.dataAt 6, dictionaryShardFile c.objects 6)) =
      some ([7, 6], some (.dictionary 3 0), some 7) := by decide
  rw [hc] at hfacts
  obtain ⟨hheld, hfacts⟩ := Prod.mk.inj (Option.some.inj hfacts)
  obtain ⟨hd, hseven⟩ := Prod.mk.inj hfacts
  obtain ⟨hiff, hle⟩ := lookupKey_iff obeys_readingCalls.of_append hc hd
  refine ⟨c, hc, hheld, hseven, ?_, hle 7 hseven⟩
  rw [← hiff, hseven]
  exact fun h => absurd (Option.some.inj h) (by decide)

end Client

/-! ## What the readers find -/

namespace V1

/-- A blob that is not there is constructed and dropped.
Source: `eos-shard-shard-file-impl-v1.c`, `blob_new_for_variant`. -/
def blobOutcome (v : BlobEntry) : BlobOutcome :=
  if v.offs = 0 then .dropped else if v.checksum.length ≠ 32 then .dropped else .blob

/-- Source: `eos-shard-shard-file-impl-v1.c`, `record_new_for_variant`. -/
def recordOutcome (v : RecordEntry) : RecordOutcome :=
  if v.rawName.length ≠ rawNameSize then .dropped
  else .record (blobOutcome v.metadata) (blobOutcome v.data)

/-- The outcome tells whether the reader constructs the blob. -/
theorem isSome_blobNewForVariant (v : BlobEntry) :
    (blobNewForVariant v).isSome ↔ blobOutcome v = .blob := by
  unfold blobNewForVariant blobOutcome
  split_ifs <;> simp

/-- The outcome tells whether the reader constructs the record. -/
theorem isSome_recordNewForVariant (v : RecordEntry) :
    (recordNewForVariant v).isSome ↔ (recordOutcome v).IsRecord := by
  unfold recordNewForVariant recordOutcome
  split_ifs <;> simp [RecordOutcome.IsRecord]

/-- The listing of a header loses records exactly if a bad name stands behind a good one. -/
theorem loses_iff (self : ℕ) (impl : ShardFileImplV1) :
    Client.Loses (.listRecordsV1 self (impl.headerVariant.records.map recordOutcome)) ↔
      ¬ GoodNames impl.headerVariant.records ∧
        ∃ v ∈ impl.headerVariant.records.head?, v.rawName.length = rawNameSize := by
  have hgood : ∀ v : RecordEntry, (recordOutcome v).IsRecord ↔ v.rawName.length = rawNameSize := by
    intro v
    rw [← isSome_recordNewForVariant, recordNewForVariant_eq_ite]
    split_ifs with h <;> simp [h]
  cases hrecords : impl.headerVariant.records with
  | nil => simp [Client.Loses, GoodNames]
  | cons v vs => simp [Client.Loses, GoodNames, hgood]

end V1

namespace V2

/-- Source: `eos-shard-shard-file-impl-v2.c`, `blob_new`. -/
def blobOutcome (impl : ShardFileImplV2) (sblob : Blob) : BlobOutcome :=
  if sblob.uncompressedSize = 0 then .absent
  else if (lookupStringConstant impl maxContentTypeSize sblob.contentTypeOffs).isNone then .dropped
  else .blob

/-- Source: `eos-shard-shard-file-impl-v2.c`, `read_blob`. -/
def readBlobOutcome (impl : ShardFileImplV2) (srecord : Record) (name : CString) : BlobOutcome :=
  match findBlob impl srecord name with
  | none => .absent
  | some sblob => blobOutcome impl sblob

/-- Source: `eos-shard-shard-file-impl-v2.c`, `record_new`. -/
def recordOutcome (impl : ShardFileImplV2) (srecord : Record) : RecordOutcome :=
  if recordIsTombstone srecord then .absent
  else .record (readBlobOutcome impl srecord blobMetadata) (readBlobOutcome impl srecord blobData)

/-- The outcome tells whether the reader constructs the blob. -/
theorem isSome_blobNew (impl : ShardFileImplV2) (sblob : Blob) :
    (blobNew impl sblob).isSome ↔ blobOutcome impl sblob = .blob := by
  unfold blobNew blobOutcome
  cases lookupStringConstant impl maxContentTypeSize sblob.contentTypeOffs <;>
    split_ifs <;> simp_all

/-- The outcome tells whether the reader finds and constructs the blob. -/
theorem isSome_readBlob (impl : ShardFileImplV2) (srecord : Record) (name : CString) :
    (readBlob impl srecord name).isSome ↔ readBlobOutcome impl srecord name = .blob := by
  unfold readBlob readBlobOutcome
  cases findBlob impl srecord name with
  | none => simp
  | some sblob => exact isSome_blobNew impl sblob

/-- The outcome tells whether the reader constructs the record. -/
theorem isSome_recordNew (impl : ShardFileImplV2) (srecord : Record) :
    (recordNew impl srecord).isSome ↔ (recordOutcome impl srecord).IsRecord := by
  unfold recordNew recordOutcome
  split_ifs <;> simp [RecordOutcome.IsRecord]

end V2

namespace Dictionary

/-- A dictionary whose filter cannot be read has been constructed already.
Source: `eos-shard-dictionary.c`, `eos_shard_dictionary_new_for_fd`. -/
def dictionaryOutcome (heap : Heap) (fd : Bytes) (offset : ℕ) : DictionaryOutcome :=
  match dictionaryOpen heap fd offset with
  | none => .absent
  | some header =>
      if header.bloomFilterStart ≠ 0 ∧
        ¬ (bloomFilterInitForFd fd (offset + header.bloomFilterStart)).toBool then .leaked
      else .dictionary

/-- The outcome tells whether the dictionary is returned. -/
theorem toBool_newForFd (heap : Heap) (fd : Bytes) (offset : ℕ) :
    (newForFd heap fd offset).toBool ↔ dictionaryOutcome heap fd offset = .dictionary := by
  unfold newForFd dictionaryOutcome
  cases dictionaryOpen heap fd offset with
  | none => simp [Except.toBool]
  | some header =>
      by_cases hstart : header.bloomFilterStart = 0
      · simp [hstart, Except.toBool]
      · cases hinit : bloomFilterInitForFd fd (offset + header.bloomFilterStart) <;>
          simp [hstart, hinit, Except.map, Except.toBool]

/-- A dictionary is lost exactly if its magic is right and `newForFd` fails. -/
theorem loses_iff (blob : ℕ) (heap : Heap) (fd : Bytes) (offset : ℕ) :
    Client.Loses (.loadAsDictionary blob false (dictionaryOutcome heap fd offset)) ↔
      (dictionaryOpen heap fd offset).isSome ∧ ¬ (newForFd heap fd offset).toBool := by
  rw [toBool_newForFd]
  unfold Client.Loses dictionaryOutcome
  cases dictionaryOpen heap fd offset with
  | none => simp
  | some header =>
      dsimp only
      split_ifs <;> simp

end Dictionary

end EosShard
