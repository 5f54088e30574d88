import PlatformKnife.Sparse.Theorems.ChunkCount

-- Two sinks for the same data in the sparse format, until the first of them is broken.

namespace Sparse

open CInt Bytes

structure Parallel [OutputFileOps σ] [OutputFileOps τ] (broken : σ → Prop) (r : σ → τ → Prop) :
    Prop where
  write : ∀ {s t} data {n}, 0 ≤ n → n < 2 ^ 31 → r s t →
    broken (OutputFileOps.write s data n).1 ∨
      r (OutputFileOps.write s data n).1 (OutputFileOps.write t data n).1 ∧
      (OutputFileOps.write t data n).2 = (OutputFileOps.write s data n).2
  stays : ∀ {s data n}, broken s → broken (OutputFileOps.write s data n).1

-- The lengths of the writes for a chunk with data are not negative.
def DataFits (bs len : Nat) : Prop :=
  0 ≤ i32 len ∧ 0 ≤ i32 (i32 (align len bs) - len)

namespace OutputFile

variable {σ τ : Type} {broken : σ → Prop} {r : σ → τ → Prop} {bs : Nat}
  {k l : OutputFile σ → OutputFile σ × Bool} {k' l' : OutputFile τ → OutputFile τ × Bool}

def withSink (o : OutputFile σ) (t : τ) : OutputFile τ where
  sink := t
  crc32 := o.crc32
  sparse := o.sparse
  useCrc := o.useCrc
  blockSize := o.blockSize
  len := o.len

def IsSparse (bs : Nat) (o : OutputFile σ) : Prop :=
  o.sparse = true ∧ o.blockSize = bs

def Broken (broken : σ → Prop) (bs : Nat) (o : OutputFile σ) : Prop :=
  broken o.sink ∧ o.IsSparse bs

-- The results of the same operation on both sinks.
def Alongside (broken : σ → Prop) (r : σ → τ → Prop) (bs : Nat) (x : OutputFile σ × Bool)
    (y : OutputFile τ × Bool) : Prop :=
  x.1.Broken broken bs ∨ ∃ t, r x.1.sink t ∧ x.1.IsSparse bs ∧ y = (x.1.withSink t, x.2)

-- An operation that can be run on both sinks.
structure Runs (broken : σ → Prop) (r : σ → τ → Prop) (bs : Nat)
    (k : OutputFile σ → OutputFile σ × Bool) (k' : OutputFile τ → OutputFile τ × Bool) : Prop where
  stays : ∀ o, o.Broken broken bs → (k o).1.Broken broken bs
  along : ∀ o t, r o.sink t → o.IsSparse bs → Alongside broken r bs (k o) (k' (o.withSink t))

theorem andThen_broken (hx : x.1.Broken broken bs) (hk : Runs broken r bs k k') :
    (andThen x k).1.Broken broken bs := by
  rw [andThen]
  split
  case isTrue  => exact hk.stays x.1 hx
  case isFalse => exact hx

theorem andThen_along (hx : Alongside broken r bs x y) (hk : Runs broken r bs k k') :
    Alongside broken r bs (andThen x k) (andThen y k') := by
  obtain hx | ⟨t, hr, hs, rfl⟩ := hx
  · exact .inl (andThen_broken hx hk)
  rw [andThen, andThen]
  split
  case isTrue  => exact hk.along x.1 t hr hs
  case isFalse => exact .inr ⟨t, hr, hs, rfl⟩

namespace Runs

theorem andThen (hk : Runs broken r bs k k') (hl : Runs broken r bs l l') :
    Runs broken r bs (fun o => andThen (k o) l) (fun o => OutputFile.andThen (k' o) l') where
  stays o ho := andThen_broken (hk.stays o ho) hl
  along o t hr hs := andThen_along (hk.along o t hr hs) hl

theorem ofFields (h : ∀ o : OutputFile σ, o.IsSparse bs → ∃ l l', Runs broken r bs l l' ∧ k o = l o ∧
    ∀ t : τ, k' (o.withSink t) = l' (o.withSink t)) : Runs broken r bs k k' where
  stays o ho := by
    obtain ⟨_, _, h, hk, _⟩ := h o ho.right
    exact hk ▸ h.stays o ho
  along o t hr hs := by
    obtain ⟨_, _, h, hk, hk'⟩ := h o hs
    exact hk ▸ hk' t ▸ h.along o t hr hs

theorem done (b : Bool) : Runs broken r bs (fun o => (o, b)) (fun o => (o, b)) where
  stays _ ho := ho
  along _ t hr hs := .inr ⟨t, hr, hs, rfl⟩

theorem ite [Decidable c] (hk : Runs broken r bs k k') (hl : Runs broken r bs l l') :
    Runs broken r bs (fun o => if c then k o else l o) (fun o => if c then k' o else l' o) := by
  split
  case isTrue  => exact hk
  case isFalse => exact hl

theorem ignore (h : Runs broken r bs k k') :
    Runs broken r bs (fun o => ((k o).1, true)) (fun o => ((k' o).1, true)) where
  stays := h.stays
  along o t hr hs := by
    obtain hb | ⟨t', hr', hs', he⟩ := h.along o t hr hs
    · exact .inl hb
    · exact .inr ⟨t', hr', hs', by rw [he]⟩

theorem update {f : OutputFile σ → OutputFile σ} {f' : OutputFile τ → OutputFile τ}
    (h : ∀ o, (f o).sink = o.sink ∧ (f o).sparse = o.sparse ∧ (f o).blockSize = o.blockSize ∧
      ∀ t : τ, f' (o.withSink t) = (f o).withSink t) :
    Runs broken r bs (fun o => (f o, true)) (fun o => (f' o, true)) where
  stays o := by
    rintro ⟨ho, hs, hb⟩
    obtain ⟨h₁, h₂, h₃, _⟩ := h o
    exact ⟨h₁ ▸ ho, h₂.trans hs, h₃.trans hb⟩
  along o t hr := by
    rintro ⟨hs, hb⟩
    obtain ⟨h₁, h₂, h₃, ht⟩ := h o
    exact .inr ⟨t, h₁ ▸ hr, ⟨h₂.trans hs, h₃.trans hb⟩, Prod.ext (ht t) rfl⟩

theorem addFillCrc (val : UInt32) :
    Runs broken r bs (fun o => (o.addFillCrc val (o.blockSize / 4), true))
      (fun o => (o.addFillCrc val (o.blockSize / 4), true)) := by
  have h (n : Nat) (o : OutputFile σ) : (o.addFillCrc val n).sink = o.sink ∧
      (o.addFillCrc val n).sparse = o.sparse ∧ (o.addFillCrc val n).blockSize = o.blockSize ∧
      ∀ t : τ, (o.withSink t).addFillCrc val n = (o.addFillCrc val n).withSink t := by
    induction n generalizing o
    case zero => exact ⟨rfl, rfl, rfl, fun _ => rfl⟩
    case succ n hi => exact hi (o.addCrc (le 4 val.toNat))
  exact .update fun o => h (o.blockSize / 4) o

theorem addCrc (d₁ d₂ : List UInt8) :
    Runs broken r bs (fun o => ((o.addCrc d₁).addCrc d₂, true))
      (fun o => ((o.addCrc d₁).addCrc d₂, true)) :=
  .update fun _ => ⟨rfl, rfl, rfl, fun _ => rfl⟩

end Runs

variable [OutputFileOps σ] [OutputFileOps τ] (hp : Parallel broken r)
variable {len : Nat}

include hp

theorem write_runs (data : Nat → UInt8) (hn : 0 ≤ n) (hl : n < 2 ^ 31) :
    Runs broken r bs (·.write data n) (·.write data n) where
  stays o ho := ⟨hp.stays ho.left, ho.right⟩
  along o t hr hs := by
    obtain hb | ⟨hr, ho⟩ := hp.write data hn hl hr
    · exact .inl ⟨hb, hs⟩
    · exact .inr ⟨_, hr, hs, Prod.ext rfl ho⟩

theorem writeBytes_runs (hd : d.length ≤ SPARSE_HEADER_LEN) :
    Runs broken r bs (·.writeBytes d) (·.writeBytes d) := by
  refine write_runs hp _ (Int.natCast_nonneg _) ?_
  rw [SPARSE_HEADER_LEN] at hd
  omega

theorem writeHeader_runs (h : ChunkHeader) :
    Runs broken r bs (·.writeBytes h.encode) (·.writeBytes h.encode) :=
  writeBytes_runs hp (by rw [ChunkHeader.encode_length]; decide)

theorem writeWord_runs (n : Nat) : Runs broken r bs (·.writeBytes (le 4 n)) (·.writeBytes (le 4 n)) :=
  writeBytes_runs hp (by rw [le_length]; decide)

theorem writeSparseSkipChunk_runs (n : Nat) :
    Runs broken r bs (·.writeSparseSkipChunk n) (·.writeSparseSkipChunk n) :=
  .ofFields fun _ _ => ⟨_, _, .ite (.done false) (writeHeader_runs hp _), rfl, fun _ => rfl⟩

theorem writeSparseFillChunk_runs (len : Nat) (val : UInt32) :
    Runs broken r bs (·.writeSparseFillChunk len val) (·.writeSparseFillChunk len val) :=
  .ofFields fun _ _ => ⟨_, _, (writeHeader_runs hp _).andThen <|
    (writeWord_runs hp _).andThen (.addFillCrc val), rfl, fun _ => rfl⟩

theorem writeSparseDataChunk_runs (hf : DataFits bs len) (data : Nat → UInt8) :
    Runs broken r bs (·.writeSparseDataChunk len data) (·.writeSparseDataChunk len data) :=
  .ofFields fun o h => by
    rw [← h.right] at hf
    exact ⟨_, _, (writeHeader_runs hp _).andThen <| (write_runs hp data hf.left (i32_lt _)).andThen <|
      (Runs.ite (write_runs hp zeroBuf hf.right (i32_lt _)) (.done true)).andThen (.addCrc _ _), rfl,
      fun _ => rfl⟩

theorem writeDataChunk_runs (hf : DataFits bs len) (data : Nat → UInt8) :
    Runs broken r bs (·.writeDataChunk len data) (·.writeDataChunk len data) :=
  .ofFields fun _ ⟨hs, _⟩ =>
    ⟨_, _, writeSparseDataChunk_runs hp hf data, if_pos hs, fun _ => if_pos hs⟩

theorem writeFillChunk_runs (len : Nat) (val : UInt32) :
    Runs broken r bs (·.writeFillChunk len val) (·.writeFillChunk len val) :=
  .ofFields fun _ ⟨hs, _⟩ =>
    ⟨_, _, writeSparseFillChunk_runs hp len val, if_pos hs, fun _ => if_pos hs⟩

theorem writeSkipChunk_runs (n : Nat) : Runs broken r bs (·.writeSkipChunk n) (·.writeSkipChunk n) :=
  .ofFields fun _ ⟨hs, _⟩ =>
    ⟨_, _, writeSparseSkipChunk_runs hp n, if_pos hs, fun _ => if_pos hs⟩

theorem writeFdChunk_runs (hf : DataFits bs len) (env : Env) (fd : Int) (offset : Nat) :
    Runs broken r bs (writeFdChunk env · len fd offset) (writeFdChunk env · len fd offset) := by
  simp only [writeFdChunk]
  cases env.mmap fd (i32 (len + (offset - alignDown offset 4096) : Nat)) (alignDown offset 4096)
  case none => exact .done false
  case some _ => exact writeDataChunk_runs hp hf _

theorem writeFileChunk_runs (hf : DataFits bs len) (env : Env) (file : String) (offset : Nat) :
    Runs broken r bs (writeFileChunk env · len file offset) (writeFileChunk env · len file offset) := by
  simp only [writeFileChunk]
  cases env.open_ file
  case none => exact .done false
  case some fd => exact writeFdChunk_runs hp hf env fd offset

theorem close_runs : Runs broken r bs (·.close) (·.close) := by
  have hc : Runs broken r bs (fun o => ((o.writeBytes (le 4 o.crc32.toNat)).1, true))
      (fun o => ((o.writeBytes (le 4 o.crc32.toNat)).1, true)) :=
    .ofFields fun o _ => ⟨_, _, (writeWord_runs hp o.crc32.toNat).ignore, rfl, fun _ => rfl⟩
  refine .ofFields fun o h => ?_
  exact ⟨_, _, .ite ((writeHeader_runs hp _).andThen hc) (.done true), if_pos h.left, fun _ => if_pos h.left⟩

end OutputFile

namespace SparseFile

open OutputFile

-- A chunk that has data has a length that can be written.
def ChunkFits (bs : Nat) (bb : BackedBlock) : Prop :=
  (∀ val, bb.source ≠ .fill val) → DataFits bs bb.len

variable {σ τ : Type} {broken : σ → Prop} {r : σ → τ → Prop} {bs : Nat}

-- The two output files between the operations.
def Beside (broken : σ → Prop) (r : σ → τ → Prop) (bs : Nat) (o : OutputFile σ) (p : OutputFile τ) :
    Prop :=
  o.Broken broken bs ∨ ∃ t, r o.sink t ∧ o.IsSparse bs ∧ p = o.withSink t

theorem Beside.run (h : Beside broken r bs o p) (hk : Runs broken r bs k k') :
    Beside broken r bs (k o).1 (k' p).1 := by
  obtain ho | ⟨t, hr, hs, rfl⟩ := h
  · exact .inl (hk.stays o ho)
  obtain hb | ⟨t', hr', hs', he⟩ := hk.along o t hr hs
  · exact .inl hb
  · exact .inr ⟨t', hr', hs', congrArg Prod.fst he⟩

variable [OutputFileOps σ] [OutputFileOps τ] (hp : Parallel broken r)

include hp

theorem writeBlock_runs (hf : ChunkFits bs bb) (env : Env) :
    Runs broken r bs (writeBlock env · bb) (writeBlock env · bb) := by
  simp only [writeBlock]
  split
  case h_1 hs => exact writeDataChunk_runs hp (hf (by simp [hs])) _
  case h_2 hs => exact writeFileChunk_runs hp (hf (by simp [hs])) env _ _
  case h_3 hs => exact writeFdChunk_runs hp (hf (by simp [hs])) env _ _
  case h_4 hs => exact writeFillChunk_runs hp _ _

theorem writeBlocks_beside (h : Beside broken r bs o p) (hf : ∀ bb ∈ l, ChunkFits bs bb) (env : Env)
    (last : Nat) :
    Beside broken r bs (writeBlocks env bs o last l).1 (writeBlocks env bs p last l).1 ∧
      (writeBlocks env bs o last l).2 = (writeBlocks env bs p last l).2 := by
  induction l generalizing o p last
  case nil => exact ⟨h, rfl⟩
  case cons bb l hi =>
    obtain ⟨hb, hl⟩ := List.forall_mem_cons.mp hf
    refine hi (.run ?_ (writeBlock_runs hp hb env)) hl _
    split
    case isTrue  => exact h.run (writeSkipChunk_runs hp _)
    case isFalse => exact h

theorem writeAllBlocks_beside (h : Beside broken r s.blockSize o p)
    (hf : ∀ bb ∈ s.dataBlocks, ChunkFits s.blockSize bb) (hw : writeAllBlocks env s p = .ok p') :
    ∃ o', writeAllBlocks env s o = .ok o' ∧ Beside broken r s.blockSize o' p' := by
  obtain ⟨hb, hl⟩ := writeBlocks_beside hp h hf env 0
  rw [writeAllBlocks] at hw ⊢
  simp only at hw ⊢
  rw [hl]
  split at hw
  case isTrue => cases hw
  case isFalse hn =>
    rw [if_neg hn]
    split at hw
    case isTrue hs =>
      rw [if_pos hs]
      cases hw
      exact ⟨_, rfl, hb.run (writeSkipChunk_runs hp _)⟩
    case isFalse hs =>
      rw [if_neg hs]
      cases hw
      exact ⟨_, rfl, hb⟩

omit hp in
theorem init_sparse (env : Env) (bs n chunks : Nat) (crc : Bool) (s : σ) (t : τ) :
    ∃ header : SparseHeader,
      (OutputFile.init env s bs n true chunks crc = if env.calloc (i32 bs) then
        let x := writeBytes ⟨s, 0, true, crc, bs, n⟩ header.encode
        if x.2 then some x.1 else none else none) ∧
      (OutputFile.init env t bs n true chunks crc = if env.calloc (i32 bs) then
        let x := writeBytes ⟨t, 0, true, crc, bs, n⟩ header.encode
        if x.2 then some x.1 else none else none) :=
  ⟨_, rfl, rfl⟩

theorem init_beside {chunks : Nat} (hr : r s t)
    (hh : ∀ d : List UInt8, d.length = SPARSE_HEADER_LEN → (OutputFileOps.write s (toPtr d) d.length).2)
    (hi : OutputFile.init env t bs n true chunks crc = some p) :
    ∃ o, OutputFile.init env s bs n true chunks crc = some o ∧ Beside broken r bs o p := by
  obtain ⟨header, hs, ht⟩ := init_sparse env bs n chunks crc s t
  rw [ht] at hi
  rw [hs]
  split at hi
  case isFalse => cases hi
  case isTrue hc =>
    have hok : (writeBytes ⟨s, 0, true, crc, bs, n⟩ header.encode).2 :=
      hh _ (SparseHeader.encode_length header)
    dsimp only at hi ⊢
    split at hi
    case isFalse => cases hi
    cases hi
    have hb : Beside broken r bs ⟨s, 0, true, crc, bs, n⟩ ⟨t, 0, true, crc, bs, n⟩ :=
      .inr ⟨t, hr, ⟨rfl, rfl⟩, rfl⟩
    exact ⟨_, (if_pos hc).trans (if_pos hok),
      hb.run (writeBytes_runs hp (SparseHeader.encode_length header).le)⟩

theorem writeTo_beside {f : SparseFile} {s : σ} {t : τ} (hr : r s t)
    (hf : ∀ bb ∈ f.dataBlocks, ChunkFits f.blockSize bb)
    (hh : ∀ d : List UInt8, d.length = SPARSE_HEADER_LEN → (OutputFileOps.write s (toPtr d) d.length).2)
    (hw : f.writeTo env t true crc = .ok t') :
    ∃ s', f.writeTo env s true crc = .ok s' ∧ (broken s' ∨ r s' t') := by
  rw [writeTo] at hw ⊢
  split at hw
  case isTrue => cases hw
  case isFalse hb =>
    rw [if_neg hb]
    split at hw
    · cases hw
    case h_2 p hi =>
      obtain ⟨o, ho, hs⟩ := init_beside hp hr hh hi
      split at hw
      · cases hw
      case h_2 p' hp' =>
        obtain ⟨o', ho', hs'⟩ := writeAllBlocks_beside hp hs hf hp'
        cases hw
        refine ⟨o'.close.1.sink, by simp only [ho, ho'], ?_⟩
        obtain hb | ⟨t, hr, _, he⟩ := hs'.run (close_runs hp)
        · exact .inl hb.left
        · exact .inr (he ▸ hr)

end SparseFile

end Sparse
