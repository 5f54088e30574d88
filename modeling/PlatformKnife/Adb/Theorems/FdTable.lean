import PlatformKnife.Adb.Fdevent
import PlatformKnife.Lib.Exec

namespace Adb.Fdevent

open Function Option Except Memory

theorem fatal_ne_ok : fatal fn msg ≠ .ok b :=
  nofun

section

variable (s : State) (a : Nat) (fde : Fde)

@[simp]
theorem setFde_fdes : (setFde s a fde).fdes = update s.fdes a fde :=
  rfl

@[simp]
theorem setFde_fdTableMax : (setFde s a fde).fdTableMax = s.fdTableMax :=
  rfl

@[simp]
theorem setFde_selectN : (setFde s a fde).selectN = s.selectN :=
  rfl

end

-- What is registered for the callers: the `fdevent` of each descriptor, and the last descriptor of an
-- `fdevent`. One that is installed again without being removed stays registered for the descriptor it had,
-- and a removal concerns the last one only; `fdevent_install` is meant for objects that are not initialised.
structure Registry where
  fde : Nat → Option Nat
  fd  : Nat → Option Nat

namespace Registry

def empty : Registry where
  fde := fun _ => none
  fd  := fun _ => none

section

variable (reg : Registry) (a fd : Nat)

def install : Registry where
  fde := Function.update reg.fde fd (some a)
  fd  := Function.update reg.fd a (some fd)

@[simp]
theorem install_fde : (reg.install a fd).fde = update reg.fde fd (some a) :=
  rfl

@[simp]
theorem install_fd : (reg.install a fd).fd = update reg.fd a (some fd) :=
  rfl

def removeFrom : Registry where
  fde := Function.update reg.fde fd none
  fd  := Function.update reg.fd a none

@[simp]
theorem removeFrom_fde : (reg.removeFrom a fd).fde = update reg.fde fd none :=
  rfl

@[simp]
theorem removeFrom_fd : (reg.removeFrom a fd).fd = update reg.fd a none :=
  rfl

end

def remove (reg : Registry) (a : Nat) : Registry :=
  match reg.fd a with
  | some fd => reg.removeFrom a fd
  | none => reg

theorem remove_of_none {reg : Registry} (h : reg.fd a = none) : reg.remove a = reg := by
  rw [remove, h]

theorem remove_of_some {reg : Registry} {fd : Nat} (h : reg.fd a = some fd) :
    reg.remove a = reg.removeFrom a fd := by
  rw [remove, h]

end Registry

section Table

variable {pl : Platform} {s s' : State} {reg : Registry} {fresh : Option Memory.Block}

-- The calls, with the memory that `realloc` returns if the table has to grow.
inductive Call (pl : Platform)
  | install (a : Ptr pl) (fd : Int) (fresh : Option Memory.Block)
  | remove (a : Ptr pl)

def Call.run (s : State) : Call pl → Exec State
  | install a fd fresh => fdeventInstall pl s a.addr fd fresh
  | remove a => fdeventRemove pl s a.addr

def Registry.after (reg : Registry) : Call pl → Registry
  | .install a fd _ => reg.install a.addr fd.toNat
  | .remove a => reg.remove a.addr

-- The entries of the table are what is registered, with descriptors below `select_n`.
structure TableOk (pl : Platform) (s : State) (reg : Registry) : Prop where
  slots   : ∀ i < s.fdTableMax, slot pl s i = (reg.fde i).getD 0
  selectN : ∀ i a, reg.fde i = some a → i < s.selectN

-- The new memory that `memset` does not reach is zero, but for the entry written next.
def Clears (pl : Platform) (s : State) : Call pl → Prop
  | .install _ fd (some fresh) => s.fdTableMax ≤ fd →
    ∀ i, s.fdTableMax ≤ i → i < newMax fd.toNat s.fdTableMax → i ≠ fd.toNat → ∀ k < pl.sizeofPtr,
      pl.sizeofPtr * s.fdTableMax + pl.sizeofInt * (newMax fd.toNat s.fdTableMax - s.fdTableMax) ≤
        pl.sizeofPtr * i + k → fresh (pl.sizeofPtr * i + k) = 0
  | _ => True

-- The table in every state of a run. A run ends at a call that does not come back.
def TableOkAlong (pl : Platform) (s : State) (reg : Registry) : List (Call pl) → Prop
  | [] => TableOk pl s reg
  | c :: calls => TableOk pl s reg ∧ ∀ s', c.run s = .ok s' → TableOkAlong pl s' (reg.after c) calls

def ClearsAlong (pl : Platform) (s : State) : List (Call pl) → Prop
  | [] => True
  | c :: calls => ∀ s', c.run s = .ok s' → Clears pl s c ∧ ClearsAlong pl s' calls

theorem lt_doubled (h : fd < n + rounds) (hn : 0 < n) : fd < doubled fd rounds n := by
  induction rounds generalizing n
  case zero => exact h
  case succ rounds hi =>
    rw [doubled]
    split
    case isTrue  => exact hi (by omega) (by omega)
    case isFalse => omega

theorem le_doubled (fd rounds n : Nat) : n ≤ doubled fd rounds n := by
  induction rounds generalizing n
  case zero => exact le_refl _
  case succ rounds hi =>
    rw [doubled]
    split
    case isTrue  => exact le_trans (by omega) (hi (n * 2))
    case isFalse => exact le_refl _

theorem lt_newMax (fd n : Nat) : fd < newMax fd n := by
  refine lt_doubled (by omega) ?_
  split <;> omega

theorem le_newMax (fd n : Nat) : n ≤ newMax fd n := by
  refine le_trans ?_ (le_doubled fd (fd + 1) _)
  split <;> omega

theorem lastUsed_succ (pl : Platform) (s : State) (n : Nat) :
    lastUsed pl s (n + 1) = if slot pl s n ≠ 0 then n else lastUsed pl s n := by
  simp only [lastUsed, List.range_succ, List.foldl_append, List.foldl_cons, List.foldl_nil]

theorem le_lastUsed (h : i < n) (hs : slot pl s i ≠ 0) : i ≤ lastUsed pl s n := by
  induction n
  case zero => omega
  case succ n hi =>
    rw [lastUsed_succ]
    split
    case isTrue => omega
    case isFalse hnot =>
      have hne : i ≠ n := by
        rintro rfl
        exact hnot hs
      exact hi (by omega)

theorem lastUsed_lt (pl : Platform) (s : State) (h : 0 < n) : lastUsed pl s n < n := by
  induction n
  case zero => omega
  case succ n hi =>
    rw [lastUsed_succ]
    split
    case isTrue => omega
    cases n
    case zero => exact Nat.zero_lt_one
    case succ n => exact Nat.lt_succ_of_lt (hi (by omega))

theorem expand_eq_ok (h : expand pl s fd fresh = .ok s') : ∃ m, fresh = some m ∧
    s'.fdes = s.fdes ∧ s'.selectN = s.selectN ∧
    s'.fdTableMax = newMax fd.toNat s.fdTableMax ∧
    s'.fdTable = zero (realloc s.fdTable m (pl.sizeofPtr * s.fdTableMax)) (pl.sizeofPtr * s.fdTableMax)
      (pl.sizeofInt * (newMax fd.toNat s.fdTableMax - s.fdTableMax)) := by
  rw [expand] at h
  by_cases hfd : fd > 32000
  case pos => rw [if_pos hfd] at h; exact absurd h fatal_ne_ok
  rw [if_neg hfd] at h
  obtain _ | m := fresh
  · exact absurd h fatal_ne_ok
  obtain rfl := ok.inj h
  refine ⟨m, rfl, ?_⟩
  by_cases hmax : s.fdTableMax = 0
  case pos => simp [hmax, fdeventInit]
  case neg => simp [hmax]

-- What a call of `fdevent_register` that comes back does to the table. New entries are empty exactly if
-- the memory behind the cleared bytes is.
structure Registers (pl : Platform) (s : State) (a : Ptr pl) (fd : Int) (fresh : Option Memory.Block)
    (s' : State) : Prop where
  nonneg : 0 ≤ fd
  fdes : s'.fdes = s.fdes
  selectN : s'.selectN = s.selectN
  max : s.fdTableMax ≤ s'.fdTableMax
  lt : fd.toNat < s'.fdTableMax
  entry : slot pl s' fd.toNat = a.addr
  others : ∀ i < s.fdTableMax, i ≠ fd.toNat → slot pl s' i = slot pl s i
  empty : (∀ i, s.fdTableMax ≤ i → i < s'.fdTableMax → i ≠ fd.toNat → slot pl s' i = 0) ↔
    Clears pl s (.install a fd fresh)

theorem Registers.of_lt {a : Ptr pl} {fd : Int} (hfd : 0 ≤ fd) (hlt : fd < s.fdTableMax) :
    Registers pl s a fd fresh { s with fdTable := setWord pl.sizeofPtr s.fdTable fd.toNat a.addr } where
  nonneg := hfd
  fdes := rfl
  selectN := rfl
  max := le_refl _
  lt := by dsimp only; omega
  entry := word_setWord a.lt
  others := fun i _ hi => word_setWord_of_ne hi
  empty := by
    constructor
    case mp =>
      intro _
      cases fresh
      case none => trivial
      case some m => exact fun hge => absurd hge (by omega)
    case mpr => exact fun _ i hle hi => absurd hi (by dsimp only; omega)

theorem Registers.of_expand {a : Ptr pl} {fd : Int} (hge : s.fdTableMax ≤ fd)
    (h : expand pl s fd fresh = .ok s') : Registers pl s a fd fresh
      { s' with fdTable := setWord pl.sizeofPtr s'.fdTable fd.toNat a.addr } := by
  obtain ⟨m, rfl, hfdes, hn, hmax, ht⟩ := expand_eq_ok h
  refine ⟨by omega, hfdes, hn, hmax ▸ le_newMax _ _, hmax ▸ lt_newMax _ _, word_setWord a.lt, ?_, ?_⟩
  · intro i hi hne
    simp only [slot]
    rw [word_setWord_of_ne hne, ht, word_zero_of_lt hi, word_realloc_of_lt hi]
  · simp only [Clears, hge, true_implies, slot, hmax]
    refine forall₄_congr fun i hle hi hne => ?_
    rw [word_setWord_of_ne hne, ht, word_zero_realloc_eq_zero_iff hle]

theorem registers_of_eq_ok {a : Ptr pl} (h : fdeventRegister pl s a.addr fresh = .ok s') :
    Registers pl s a (s.fdes a.addr).fd fresh s' := by
  simp only [fdeventRegister] at h
  by_cases hneg : (s.fdes a.addr).fd < 0
  case pos => rw [if_pos hneg] at h; exact absurd h fatal_ne_ok
  rw [if_neg hneg] at h
  by_cases hge : (s.fdes a.addr).fd ≥ s.fdTableMax
  case pos =>
    rw [if_pos hge] at h
    obtain ⟨s₁, h₁, h⟩ := bind_eq_ok_iff.mp h
    obtain rfl := ok.inj h
    exact .of_expand hge h₁
  rw [if_neg hge] at h
  obtain rfl := ok.inj h
  exact .of_lt (by omega) (by omega)

theorem fdeventConnect_eq (s : State) (h : 0 ≤ (s.fdes a).fd) :
    fdeventConnect s a = { s with selectN := max s.selectN ((s.fdes a).fd.toNat + 1) } := by
  rw [fdeventConnect]
  split
  case isTrue hge =>
    have : ((s.fdes a).fd + 1).toNat = max s.selectN ((s.fdes a).fd.toNat + 1) := by omega
    rw [this]
  case isFalse hlt =>
    have : s.selectN = max s.selectN ((s.fdes a).fd.toNat + 1) := by omega
    rw [← this]

theorem fdeventInstall_eq_ok (h : fdeventInstall pl s a.addr fd fresh = .ok s') :
    ∃ s₁, Registers pl s a fd fresh s₁ ∧ s'.fdTableMax = s₁.fdTableMax ∧ slot pl s' = slot pl s₁ ∧
      s'.selectN = max s.selectN (fd.toNat + 1) ∧
      s'.fdes = update s.fdes a.addr ⟨fd, false, fdeActive, 0⟩ := by
  obtain ⟨s₁, hreg, h⟩ := bind_eq_ok_iff.mp h
  have hr := registers_of_eq_ok hreg
  simp only [setFde_fdes, update_self] at hr
  have hfd : (s₁.fdes a.addr).fd = fd := by rw [hr.fdes, setFde_fdes, update_self]
  obtain rfl := ok.inj h
  rw [fdeventConnect_eq s₁ (hfd ▸ hr.nonneg), hfd]
  refine ⟨{ s₁ with fdes := s.fdes }, ?_, rfl, rfl, ?_, ?_⟩
  · exact ⟨hr.nonneg, rfl, hr.selectN, hr.max, hr.lt, hr.entry, hr.others, hr.empty⟩
  · rw [setFde_selectN, hr.selectN, setFde_selectN]
  · rw [setFde_fdes, hr.fdes, setFde_fdes, update_self, update_idem, BitVec.or_self]

-- The table with what the two kinds of calls keep of the objects.
structure Inv (pl : Platform) (s : State) (reg : Registry) : Prop extends TableOk pl s reg where
  max : ∀ i a, reg.fde i = some a → i < s.fdTableMax
  n : s.selectN ≤ s.fdTableMax
  ne : ∀ i a, reg.fde i = some a → a ≠ 0
  fdOf : ∀ a fd, reg.fd a = some fd → (s.fdes a).fd = fd
  state : ∀ a, (s.fdes a).state = if (reg.fd a).isSome then fdeActive else 0

theorem inv_initial (pl : Platform) (fdes : Nat → Fde) : Inv pl (initial fdes) .empty where
  slots := nofun
  selectN := nofun
  max := nofun
  n := le_refl _
  ne := nofun
  fdOf := nofun
  state _ := rfl

theorem Inv.tableOk_install_iff (hi : Inv pl s reg) (h : fdeventInstall pl s a.addr fd fresh = .ok s') :
    TableOk pl s' (reg.install a.addr fd.toNat) ↔ Clears pl s (.install a fd fresh) := by
  obtain ⟨s₁, hr, hmax, hslot, hn, -⟩ := fdeventInstall_eq_ok h
  rw [← hr.empty, ← hslot, ← hmax]
  have hothers (i : Nat) (hne : i ≠ fd.toNat) : (reg.install a.addr fd.toNat).fde i = reg.fde i :=
    update_of_ne hne _ _
  constructor
  case mp =>
    intro hok i hle hlt hne
    have hnone : reg.fde i = none := eq_none_iff_forall_ne_some.mpr fun b hb => by
      have := hi.max i b hb
      omega
    rw [hok.slots i hlt, hothers i hne, hnone]
    rfl
  case mpr =>
    intro hempty
    refine ⟨fun i hlt => ?_, fun i b hb => ?_⟩
    · by_cases hne : i = fd.toNat
      case pos => rw [hne, hslot, hr.entry, Registry.install_fde, update_self, getD_some]
      case neg =>
        rw [hothers i hne]
        by_cases hle : i < s.fdTableMax
        case pos => rw [hslot, hr.others i hle hne, hi.slots i hle]
        have hnone : reg.fde i = none := eq_none_iff_forall_ne_some.mpr fun b hb => by
          have := hi.max i b hb
          omega
        rw [hempty i (by omega) hlt hne, hnone, getD_none]
    · by_cases hne : i = fd.toNat
      case pos => omega
      case neg =>
        have := hi.selectN i b (hothers i hne ▸ hb)
        omega

theorem Inv.install {a : Ptr pl} {fd : Int} (hi : Inv pl s reg)
    (h : fdeventInstall pl s a.addr fd fresh = .ok s')
    (hok : TableOk pl s' (reg.install a.addr fd.toNat)) : Inv pl s' (reg.install a.addr fd.toNat) := by
  obtain ⟨s₁, hr, hmax, hslot, hn, hfdes⟩ := fdeventInstall_eq_ok h
  have hnonneg := hr.nonneg
  have hgrow := hr.max
  have hlt := hr.lt
  refine { hok with max := ?max, n := ?n, ne := ?ne, fdOf := ?fdOf, state := ?state }
  case n =>
    have := hi.n
    omega
  case max =>
    intro i b hb
    by_cases hne : i = fd.toNat
    case pos => omega
    rw [Registry.install_fde, update_of_ne hne] at hb
    have := hi.max i b hb
    omega
  case ne =>
    intro i b hb
    by_cases hne : i = fd.toNat
    case pos =>
      rw [hne, Registry.install_fde, update_self, some.injEq] at hb
      exact hb ▸ Nat.pos_iff_ne_zero.mp a.pos
    rw [Registry.install_fde, update_of_ne hne] at hb
    exact hi.ne i b hb
  case fdOf =>
    intro b n hb
    by_cases hne : b = a.addr
    case pos =>
      rw [hne, Registry.install_fd, update_self, some.injEq] at hb
      rw [hfdes, hne, update_self, ← hb]
      exact (Int.toNat_of_nonneg hnonneg).symm
    rw [Registry.install_fd, update_of_ne hne] at hb
    rw [hfdes, update_of_ne hne, hi.fdOf b n hb]
  case state =>
    intro b
    by_cases hne : b = a.addr
    case pos => rw [hfdes, hne, Registry.install_fd, update_self, update_self]; rfl
    case neg =>
      rw [hfdes, Registry.install_fd, update_of_ne hne, update_of_ne hne, hi.state b]

theorem fdAssign_eq_ok (h : fdAssign pl fd fds b = .ok fds') : fds' = update fds fd.toNat b := by
  rw [fdAssign] at h
  split at h
  case isTrue  => exact (ok.inj h).symm
  case isFalse => cases h

theorem fdeventDisconnect_eq_ok (h : fdeventDisconnect pl s a = .ok s') : s'.fdes = s.fdes ∧
    s'.fdTable = s.fdTable ∧ s'.fdTableMax = s.fdTableMax ∧ s'.selectN = lastUsed pl s s.selectN + 1 := by
  obtain ⟨_, _, h⟩ := bind_eq_ok_iff.mp h
  obtain ⟨_, _, h⟩ := bind_eq_ok_iff.mp h
  obtain ⟨_, _, h⟩ := bind_eq_ok_iff.mp h
  obtain rfl := ok.inj h
  exact ⟨rfl, rfl, rfl, rfl⟩

theorem fdeventUnregister_eq_ok (h : fdeventUnregister pl s a = .ok s') : 0 ≤ (s.fdes a).fd ∧
    (s.fdes a).fd < s.fdTableMax ∧ slot pl s (s.fdes a).fd.toNat = a ∧ s'.fdes = s.fdes ∧
    s'.fdTableMax = s.fdTableMax ∧ s'.selectN = s.selectN ∧
    s'.fdTable = setWord pl.sizeofPtr s.fdTable (s.fdes a).fd.toNat 0 := by
  simp only [fdeventUnregister] at h
  by_cases hrange : (s.fdes a).fd < 0 ∨ (s.fdes a).fd ≥ s.fdTableMax
  case pos => rw [if_pos hrange] at h; exact absurd h fatal_ne_ok
  rw [if_neg hrange] at h
  by_cases hslot : slot pl s (s.fdes a).fd.toNat ≠ a
  case pos => rw [if_pos hslot] at h; exact absurd h fatal_ne_ok
  rw [if_neg hslot] at h
  obtain rfl := ok.inj h
  exact ⟨by omega, by omega, by simpa using hslot, rfl, rfl, rfl, rfl⟩

theorem fdeventRemove_eq_ok (hi : Inv pl s reg) (h : fdeventRemove pl s a = .ok s')
    (hfd : reg.fd a = some fd) : slot pl s fd = a ∧ fd < s.fdTableMax ∧
      s'.fdes = update s.fdes a { s.fdes a with state := 0, events := 0 } ∧
      s'.fdTableMax = s.fdTableMax ∧ s'.selectN = lastUsed pl s s.selectN + 1 ∧
      s'.fdTable = setWord pl.sizeofPtr s.fdTable fd 0 := by
  have hstate : (s.fdes a).state = fdeActive := by rw [hi.state a, hfd]; rfl
  have hpending : ¬any (s.fdes a).state fdePending := by rw [hstate]; decide
  have hactive : any (s.fdes a).state fdeActive := by rw [hstate]; decide
  simp only [fdeventRemove] at h
  rw [if_neg hpending, if_pos hactive] at h
  obtain ⟨s₁, h₁, h⟩ := bind_eq_ok_iff.mp h
  obtain ⟨s₂, h₂, h⟩ := bind_eq_ok_iff.mp h
  obtain rfl := ok.inj h
  obtain ⟨hfdes₁, ht₁, hmax₁, hn₁⟩ := fdeventDisconnect_eq_ok h₁
  obtain ⟨_, hlt, hslot, hfdes₂, hmax₂, hn₂, ht₂⟩ := fdeventUnregister_eq_ok h₂
  have hnat : (s₁.fdes a).fd.toNat = fd := by rw [hfdes₁, hi.fdOf a fd hfd]; rfl
  rw [hnat] at hslot ht₂
  refine ⟨?_, ?_, ?_, ?_, ?_, ?_⟩
  · rw [← hslot, slot, slot, ht₁]
  · rw [hfdes₁, hi.fdOf a fd hfd, hmax₁] at hlt
    omega
  · rw [setFde_fdes, hfdes₂, hfdes₁]
  · rw [setFde_fdTableMax, hmax₂, hmax₁]
  · rw [setFde_selectN, hn₂, hn₁]
  · exact ht₂.trans (ht₁ ▸ rfl)

theorem Inv.remove_of_none (hi : Inv pl s reg) (h : fdeventRemove pl s a = .ok s')
    (hfd : reg.fd a = none) : Inv pl s' reg := by
  have hstate : (s.fdes a).state = 0 := by rw [hi.state a, hfd]; rfl
  have hpending : ¬any (s.fdes a).state fdePending := by rw [hstate]; decide
  have hactive : ¬any (s.fdes a).state fdeActive := by rw [hstate]; decide
  simp only [fdeventRemove] at h
  rw [if_neg hpending, if_neg hactive] at h
  obtain rfl := ok.inj h
  refine { hi with fdOf := ?fdOf, state := ?state }
  case fdOf =>
    intro b n hb
    have hne : b ≠ a := by
      rintro rfl
      rw [hfd] at hb
      cases hb
    rw [setFde_fdes, update_of_ne hne, hi.fdOf b n hb]
  case state =>
    intro b
    by_cases hne : b = a
    case pos => rw [hne, setFde_fdes, update_self, hfd]; rfl
    case neg => rw [setFde_fdes, update_of_ne hne, hi.state b]

theorem Inv.remove_of_some {fd : Nat} (hi : Inv pl s reg) (h : fdeventRemove pl s a = .ok s')
    (hfd : reg.fd a = some fd) : Inv pl s' (reg.removeFrom a fd) := by
  obtain ⟨hslot, hlt, hfdes, hmax, hn, ht⟩ := fdeventRemove_eq_ok hi h hfd
  have hold {i b : Nat} (hb : (reg.removeFrom a fd).fde i = some b) : reg.fde i = some b := by
    by_cases hne : i = fd
    case pos => simp [hne] at hb
    case neg => rwa [Registry.removeFrom_fde, update_of_ne hne] at hb
  refine ⟨⟨?slots, ?selectN⟩, ?max, ?n, ?ne, ?fdOf, ?state⟩
  case slots =>
    intro i hi'
    by_cases hne : i = fd
    case pos =>
      rw [hne, slot, ht, word_setWord (Nat.pow_pos (by decide)), Registry.removeFrom_fde,
        update_self, getD_none]
    rw [slot, ht, word_setWord_of_ne hne, Registry.removeFrom_fde, update_of_ne hne]
    exact hi.slots i (hmax ▸ hi')
  case selectN =>
    intro i b hb
    have hs : slot pl s i ≠ 0 := by
      rw [hi.slots i (hi.max i b (hold hb)), hold hb]
      exact hi.ne i b (hold hb)
    rw [hn]
    exact Nat.lt_succ_of_le (le_lastUsed (hi.selectN i b (hold hb)) hs)
  case max => exact fun i b hb => hmax ▸ hi.max i b (hold hb)
  case ne => exact fun i b hb => hi.ne i b (hold hb)
  case n =>
    rw [hn, hmax]
    by_cases h0 : s.selectN = 0
    case pos => simp only [h0]; exact Nat.lt_of_le_of_lt (Nat.zero_le _) hlt
    case neg => exact le_trans (lastUsed_lt pl s (by omega)) hi.n
  case fdOf =>
    intro b n hb
    by_cases hne : b = a
    case pos => simp [hne] at hb
    rw [Registry.removeFrom_fd, update_of_ne hne] at hb
    rw [hfdes, update_of_ne hne, hi.fdOf b n hb]
  case state =>
    intro b
    by_cases hne : b = a
    case pos => rw [hne, hfdes, Registry.removeFrom_fd, update_self, update_self]; rfl
    case neg =>
      rw [hfdes, Registry.removeFrom_fd, update_of_ne hne, update_of_ne hne, hi.state b]

theorem Inv.remove (hi : Inv pl s reg) (h : fdeventRemove pl s a = .ok s') : Inv pl s' (reg.remove a) := by
  cases hfd : reg.fd a
  case none => rw [Registry.remove_of_none hfd]; exact hi.remove_of_none h hfd
  case some fd => rw [Registry.remove_of_some hfd]; exact hi.remove_of_some h hfd

theorem Inv.after (hi : Inv pl s reg) (h : c.run s = .ok s') :
    (TableOk pl s' (reg.after c) ↔ Clears pl s c) ∧
    (TableOk pl s' (reg.after c) → Inv pl s' (reg.after c)) := by
  cases c
  case install a fd fresh => exact ⟨hi.tableOk_install_iff h, hi.install h⟩
  case remove a =>
    have hi' := hi.remove h
    exact ⟨iff_of_true hi'.toTableOk trivial, fun _ => hi'⟩

theorem Inv.along_iff (hi : Inv pl s reg) (calls : List (Call pl)) :
    TableOkAlong pl s reg calls ↔ ClearsAlong pl s calls := by
  induction calls generalizing s reg
  case nil => exact iff_of_true hi.toTableOk trivial
  case cons c l hind =>
    simp only [TableOkAlong, ClearsAlong, hi.toTableOk, true_and]
    refine forall₂_congr fun s' hs' => ?_
    obtain ⟨hiff, hinv⟩ := hi.after hs'
    constructor
    case mp =>
      intro h
      have hok : TableOk pl s' (reg.after c) := by
        cases l
        case nil  => exact h
        case cons => exact h.left
      exact ⟨hiff.mp hok, (hind (hinv hok)).mp h⟩
    case mpr =>
      rintro ⟨hc, h⟩
      exact (hind (hinv (hiff.mpr hc))).mpr h

theorem tableOkAlong_iff (pl : Platform) (fdes : Nat → Fde) (calls : List (Call pl)) :
    TableOkAlong pl (initial fdes) .empty calls ↔ ClearsAlong pl (initial fdes) calls :=
  (inv_initial pl fdes).along_iff calls

-- Pointers of 8 bytes and an `int` of 4.
def lp64 : Platform where
  sizeofInt := 4
  sizeofPtr := 8
  fdSetsize := 1024

def blank : Fde where
  fd := 0
  forceEof := false
  state := 0
  events := 0

def objectAt (addr : Nat) (h : (0 < addr && addr < 256 ^ lp64.sizeofPtr) = true) : Ptr lp64 where
  addr := addr
  pos  := by simp only [Bool.and_eq_true, decide_eq_true_eq] at h; exact h.left
  lt   := by simp only [Bool.and_eq_true, decide_eq_true_eq] at h; exact h.right

-- Of the 256 entries of the first table only half are cleared.
theorem not_tableOkAlong_firstInstall : lp64.sizeofInt < lp64.sizeofPtr ∧
    ¬TableOkAlong lp64 (initial fun _ => blank) .empty
      [.install (objectAt 0x1000 (Eq.refl true)) 3 (some fun _ => 0xa5)] := by
  refine ⟨by decide, fun h => ?_⟩
  rw [(inv_initial lp64 _).along_iff] at h
  have hclears := (h _ rfl).left (by decide) 200 (by decide) (by decide) (by decide) 0 (by decide)
    (by decide)
  exact absurd hclears (by decide)

end Table

end Adb.Fdevent
