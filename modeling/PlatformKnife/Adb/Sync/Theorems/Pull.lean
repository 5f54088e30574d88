import PlatformKnife.Adb.Sync.Pull

namespace Adb.Sync

open Bytes CInt CString Fallible Client List Nat Header
open FsConfig (slash)

-- The components of a path: what is between the slashes.
def components : List UInt8 → List (List UInt8)
  | [] => [[]]
  | b :: l =>
    if b = slash then [] :: components l
    else match components l with
      | [] => [[b]]
      | h :: rest => (b :: h) :: rest

def Below (rel : List UInt8) : Prop :=
  ∀ name ∈ components rel, name ≠ [] ∧ name ≠ [dot, dot]

-- The file is below the directory, whose path ends in a slash.
def Inside (dir path : List UInt8) : Prop :=
  ∃ rel, path = dir ++ rel ∧ Below rel

theorem components_ne_nil (l : List UInt8) : components l ≠ [] := by
  obtain _ | ⟨b, l⟩ := l
  · simp [components]
  rw [components]
  split
  case isTrue  => simp
  case isFalse => split <;> simp

theorem components_append (l₁ l₂ : List UInt8) :
    components (l₁ ++ slash :: l₂) = components l₁ ++ components l₂ := by
  induction l₁
  case nil => simp [components]
  case cons b l hi =>
    obtain ⟨h, rest, hc⟩ := exists_cons_of_ne_nil (components_ne_nil l)
    simp only [cons_append, components, hi, hc]
    split
    case isTrue  => rfl
    case isFalse => rfl

theorem Below.append (h₁ : Below l₁) (h₂ : Below l₂) : Below (l₁ ++ slash :: l₂) := by
  intro name hn
  rw [components_append] at hn
  cases mem_append.mp hn
  case inl hn => exact h₁ name hn
  case inr hn => exact h₂ name hn

-- The entries that are not skipped.
def Dent.kept (d : Dent) : Bool :=
  if sIsdir d.mode then !isDots d.name else sIsreg d.mode || sIslnk d.mode

-- The `read` of the client refuses a count above `SSIZE_MAX`, as that of Linux does.
def RefusesHuge (c : Client) : Prop :=
  c.huge = false

-- No more than this was stored in a buffer at a time.
def StoresAtMost (limit : Nat) (c c' : Client) : Prop :=
  ∃ new, c'.heard = c.heard ++ new ∧ ∀ n, .stored n ∈ new → n ≤ limit

-- What any part of the client does: it is told more, stores at most so many bytes at a time, and creates
-- only files from this set.
structure Step (limit : Nat) (p : List UInt8 → Prop) (c c' : Client) : Prop where
  huge  : c'.huge = c.huge
  heard : ∃ new, c'.heard = c.heard ++ new ∧ (RefusesHuge c → ∀ n, .stored n ∈ new → n ≤ limit)
  creat : ∀ path, .creat path ∈ c'.calls → .creat path ∈ c.calls ∨ p path

namespace Step

variable {limit : Nat} {p : List UInt8 → Prop} {c c' c₁ : Client}

theorem of_eq (h₁ : c'.huge = c.huge) (h₂ : c'.heard = c.heard) (h₃ : c'.calls = c.calls) :
    Step limit p c c' :=
  ⟨h₁, ⟨[], by simp [h₂], by simp⟩, fun _ h => .inl (h₃ ▸ h)⟩

theorem refl (c : Client) : Step limit p c c :=
  .of_eq rfl rfl rfl

theorem trans (h₁ : Step limit p c c₁) (h₂ : Step limit p c₁ c') : Step limit p c c' where
  huge := h₂.huge.trans h₁.huge
  heard := by
    obtain ⟨new₁, he₁, hs₁⟩ := h₁.heard
    obtain ⟨new₂, he₂, hs₂⟩ := h₂.heard
    refine ⟨new₁ ++ new₂, by rw [he₂, he₁, append_assoc], fun hr n hn => ?_⟩
    cases mem_append.mp hn
    case inl hn => exact hs₁ hr n hn
    case inr hn => exact hs₂ (h₁.huge.trans hr) n hn
  creat path hp := by
    cases h₂.creat path hp
    case inl hp => exact h₁.creat path hp
    case inr hp => exact .inr hp

theorem told (h : Step limit p c c') : c.heard ⊆ c'.heard := by
  obtain ⟨new, he, _⟩ := h.heard
  exact he ▸ subset_append_left ..

theorem bind {x : Talk α} {f : α → Talk β} (hx : Step limit p c (x c).snd)
    (hf : ∀ a c', x c = (some a, c') → Step limit p c' (f a c').snd) :
    Step limit p c ((x >>= f) c).snd :=
  bind_snd Step.trans hx hf

end Step

variable {limit : Nat} {p : List UInt8 → Prop} {host : Host}

theorem readx_step (n : Nat) (c : Client) : Step limit p c (Client.readx n c).snd := by
  rw [Client.readx]
  split <;> exact .of_eq rfl rfl rfl

theorem writex_step (bytes : List UInt8) (c : Client) : Step limit p c (writex bytes c).snd := by
  rw [writex]
  split <;> exact .of_eq rfl rfl rfl

theorem hear_step (h : Heard) (c : Client) (hs : ∀ n, h = .stored n → RefusesHuge c → n ≤ limit) :
    Step limit p c (hear h c).snd :=
  ⟨rfl, ⟨[h], rfl, fun hr n hn => hs n (mem_singleton.mp hn).symm hr⟩, fun _ h => .inl h⟩

-- A length that is negative is above `SSIZE_MAX` as a `size_t`.
theorem toU64_le {len : Int} (h₁ : -2 ^ 31 ≤ len) (h₂ : len ≤ limit) (h : toU64 len ≤ ssizeMax) :
    toU64 len ≤ limit := by
  rw [toU64, ssizeMax] at *
  omega

theorem readInto_step {len : Int} (h₁ : -2 ^ 31 ≤ len) (h₂ : len ≤ limit) (c : Client) :
    Step limit p c (readInto len c).snd := by
  rw [readInto, get_bind]
  split
  case isTrue => exact .refl c
  case isFalse h =>
    refine .bind (hear_step _ c fun n hn hr => ?_) fun _ c₁ _ => readx_step _ c₁
    have hu : toU64 len ≤ ssizeMax := by
      by_contra hu
      exact h ⟨not_le.mp hu, by simp [show c.huge = false from hr]⟩
    rw [← Heard.stored.inj hn]
    exact (min_le_left ..).trans (toU64_le h₁ h₂ hu)

theorem call_step (hp : ∀ path, f = .creat path → p path) (c : Client) :
    Step limit p c (Client.call host f c).snd := by
  refine ⟨rfl, ⟨[], by simp [Client.call], by simp⟩, fun path hc => ?_⟩
  cases mem_append.mp hc
  case inl hc => exact .inl hc
  case inr hc => exact .inr (hp path (mem_singleton.mp hc).symm)

theorem hear_mem (h : hear d c = (some a, c')) : d ∈ c'.heard := by
  rw [hear, modify_apply] at h
  simp [← (Prod.mk.inj h).right]

theorem readCounted_step (hl : m ≤ limit) (n : Nat) (c : Client) :
    Step limit p c (readCounted m n c).snd := by
  rw [readCounted]
  split
  case isTrue => exact .refl c
  case isFalse h => exact readInto_step (le_toI32 n) (by omega) c

theorem listEntries_step (hl : 256 ≤ limit) (fuel : Nat) (dents : List Dent) (c : Client) :
    Step limit p c (listEntries fuel dents c).snd := by
  induction fuel generalizing dents c
  case zero => exact .refl c
  case succ fuel hi =>
    rw [listEntries]
    refine .bind (readx_step 20 c) fun msg c₁ _ => ?_
    split
    case isTrue => exact .refl c₁
    split
    case isTrue => exact .refl c₁
    refine .bind (readCounted_step hl _ c₁) fun buf c₂ _ => ?_
    exact .bind (hear_step _ c₂ (by simp)) fun _ c₃ _ => hi _ c₃

theorem listEntries_heard (h : listEntries fuel dents c = (some ds, c')) :
    ∀ d ∈ ds, d ∈ dents ∨ .dent d ∈ c'.heard := by
  induction fuel generalizing dents c
  case zero => exact absurd h fail_ne_some
  case succ fuel hi =>
    rw [listEntries] at h
    obtain ⟨msg, c₁, _, h⟩ := bind_eq_some_iff.mp h
    split at h
    case isTrue =>
      rw [← (pure_eq_some_iff.mp h).left]
      exact fun d hd => .inl hd
    split at h
    case isTrue => exact absurd h fail_ne_some
    obtain ⟨buf, c₂, _, h⟩ := bind_eq_some_iff.mp h
    obtain ⟨_, c₃, hh, h⟩ := bind_eq_some_iff.mp h
    intro d hd
    cases hi h d hd
    case inr hd => exact .inr hd
    case inl hd =>
      cases mem_append.mp hd
      case inl hd => exact .inl hd
      case inr hd =>
        have hs := listEntries_step (p := fun _ => True) (le_refl 256) fuel (dents ++ [d]) c₃
        rw [← mem_singleton.mp hd] at h hh
        rw [h] at hs
        exact .inr (hs.told (hear_mem hh))

theorem syncLs_step (hl : 256 ≤ limit) (path : List UInt8) (c : Client) :
    Step limit p c (syncLs path c).snd := by
  rw [syncLs]
  split
  case isTrue => exact .refl c
  refine .bind (writex_step _ c) fun _ c₁ _ => .bind (writex_step _ c₁) fun _ c₂ _ => ?_
  rw [get_bind]
  exact listEntries_step hl _ _ c₂

theorem syncLs_heard (h : syncLs path c = (some ds, c')) : ∀ d ∈ ds, .dent d ∈ c'.heard := by
  rw [syncLs] at h
  split at h
  case isTrue => exact absurd h fail_ne_some
  obtain ⟨_, _, _, h⟩ := bind_eq_some_iff.mp h
  obtain ⟨_, _, _, h⟩ := bind_eq_some_iff.mp h
  rw [get_bind] at h
  intro d hd
  exact (listEntries_heard h d hd).resolve_left (not_mem_nil)

theorem buildListCb_mem (rpath lpath : List UInt8) (lists : List CopyInfo × List CopyInfo) (d : Dent) :
    (∀ ci ∈ (syncLsBuildListCb rpath lpath lists d).fst,
      ci ∈ lists.fst ∨ d.kept ∧ ci.dst = lpath ++ d.name) ∧
    (∀ ci ∈ (syncLsBuildListCb rpath lpath lists d).snd,
      ci ∈ lists.snd ∨ d.kept ∧ ci.dst = lpath ++ d.name ++ [slash]) := by
  rw [syncLsBuildListCb]
  split
  case isTrue hd =>
    split
    case isTrue => exact ⟨fun _ h => .inl h, fun _ h => .inl h⟩
    case isFalse hn =>
      refine ⟨fun _ h => .inl h, fun ci h => ?_⟩
      cases mem_cons.mp h
      case inl h => exact .inr ⟨by simp [Dent.kept, hd, hn], by simp [h, mkcopyinfo]⟩
      case inr h => exact .inl h
  case isFalse hd =>
    split
    case isFalse => exact ⟨fun _ h => .inl h, fun _ h => .inl h⟩
    case isTrue hr =>
      refine ⟨fun ci h => ?_, fun _ h => .inl h⟩
      cases mem_cons.mp h
      case inl h => exact .inr ⟨by simpa [Dent.kept, hd] using hr, by simp [h, mkcopyinfo]⟩
      case inr h => exact .inl h

theorem buildList_mem (ds : List Dent) (rpath lpath : List UInt8) (lists : List CopyInfo × List CopyInfo) :
    (∀ ci ∈ (ds.foldl (syncLsBuildListCb rpath lpath) lists).fst,
      ci ∈ lists.fst ∨ ∃ d ∈ ds, d.kept ∧ ci.dst = lpath ++ d.name) ∧
    (∀ ci ∈ (ds.foldl (syncLsBuildListCb rpath lpath) lists).snd,
      ci ∈ lists.snd ∨ ∃ d ∈ ds, d.kept ∧ ci.dst = lpath ++ d.name ++ [slash]) := by
  induction ds generalizing lists
  case nil => exact ⟨fun _ h => .inl h, fun _ h => .inl h⟩
  case cons d ds hi =>
    obtain ⟨h₁, h₂⟩ := hi (syncLsBuildListCb rpath lpath lists d)
    obtain ⟨hd₁, hd₂⟩ := buildListCb_mem rpath lpath lists d
    refine ⟨fun ci h => ?_, fun ci h => ?_⟩
    · obtain h | ⟨e, he, hk⟩ := h₁ ci h
      · exact (hd₁ ci h).imp_right fun hk => ⟨d, mem_cons_self, hk⟩
      · exact .inr ⟨e, mem_cons_of_mem d he, hk⟩
    · obtain h | ⟨e, he, hk⟩ := h₂ ci h
      · exact (hd₂ ci h).imp_right fun hk => ⟨d, mem_cons_self, hk⟩
      · exact .inr ⟨e, mem_cons_of_mem d he, hk⟩

theorem remoteBuildList_step (fuel : Nat) (filelist : List CopyInfo) (rpath lpath : List UInt8)
    (c : Client) : Step syncDataMax p c (remoteBuildList fuel filelist rpath lpath c).snd := by
  induction fuel generalizing filelist rpath lpath c
  case zero => exact .refl c
  case succ fuel hi =>
    rw [remoteBuildList]
    refine .bind (syncLs_step (by decide) _ c) fun ds c₁ _ => ?_
    exact foldlM_snd .refl .trans (fun _ _ c₂ => hi _ _ _ c₂) _

-- The names listed so far stay below the directory they are listed in.
def Tame (c : Client) : Prop :=
  ∀ d, .dent d ∈ c.heard → d.kept → Below d.name

theorem Tame.before (hs : Step limit p c c') (h : Tame c') : Tame c :=
  fun d hd => h d (hs.told hd)

theorem Inside.of_subdir (hn : Below name) (h : Inside (dir ++ name ++ [slash]) path) :
    Inside dir path := by
  obtain ⟨rel, hp, hr⟩ := h
  exact ⟨name ++ slash :: rel, by simp [hp], hn.append hr⟩

-- The invariant of the loop over the directories in a directory, from the state `c₁` on.
def Gathered (old : List CopyInfo) (dir : List UInt8) (c₁ : Client) (fl : List CopyInfo)
    (c₂ : Client) : Prop :=
  Step syncDataMax (fun _ => True) c₁ c₂ ∧ (Tame c₂ → ∀ ci ∈ fl, ci ∈ old ∨ Inside dir ci.dst)

-- By induction on the depth, and for each directory on those in it.
theorem remoteBuildList_inside (h : remoteBuildList fuel filelist rpath lpath c = (some fs, c'))
    (ht : Tame c') : ∀ ci ∈ fs, ci ∈ filelist ∨ Inside lpath ci.dst := by
  induction fuel generalizing filelist rpath lpath c c' fs
  case zero => exact absurd h fail_ne_some
  case succ fuel hi =>
    rw [remoteBuildList] at h
    obtain ⟨ds, c₁, hl, h⟩ := bind_eq_some_iff.mp h
    obtain ⟨hf, hd⟩ := buildList_mem ds rpath lpath (filelist, [])
    have hds := syncLs_heard hl
    have hg : Gathered filelist lpath c₁ fs c' := by
      refine foldlM_inv (fun dir hm fl c₂ fl' c₃ hg hr => ?_) h ⟨.refl c₁, fun ht ci hc => ?_⟩
      · obtain ⟨hs, hfl⟩ := hg
        have hs₃ := remoteBuildList_step (p := fun _ => True) fuel fl dir.src dir.dst c₂
        rw [hr] at hs₃
        refine ⟨hs.trans hs₃, fun ht ci hc => ?_⟩
        obtain ⟨d, hd, hk, hp⟩ := (hd dir hm).resolve_left not_mem_nil
        cases hi hr ht ci hc
        case inl hc => exact hfl (ht.before hs₃) ci hc
        case inr hc => exact .inr <| .of_subdir (ht.before (hs.trans hs₃) d (hds d hd) hk) (hp ▸ hc)
      · refine (hf ci hc).imp_right ?_
        rintro ⟨d, hd, hk, hp⟩
        exact ⟨d.name, hp, ht d (hds d hd) hk⟩
    exact hg.right ht

theorem mkdirsLoop_step (host : Host) (front path : List UInt8) (c : Client) :
    Step limit p c (Client.mkdirsLoop host front path c).snd := by
  induction path generalizing front c
  case nil => exact .refl c
  case cons b path hi =>
    rw [Client.mkdirsLoop]
    split
    case isFalse => exact hi _ c
    refine .bind (call_step (by simp) c) fun made c₁ _ => ?_
    split
    case isTrue  => exact hi _ c₁
    case isFalse => exact .refl c₁

theorem mkdirs_step (host : Host) (path : List UInt8) (c : Client) :
    Step limit p c (Client.mkdirs host path c).snd := by
  cases path
  case nil => exact .refl c
  case cons b path => exact mkdirsLoop_step host [b] path c

theorem remoteError_step (hl : 256 ≤ limit) (lpath : List UInt8) (msg : Header) (c : Client) :
    Step limit p c (remoteError host lpath msg c).snd := by
  refine .bind (call_step (by simp) c) fun _ c₁ _ => ?_
  split
  case isFalse => exact .refl c₁
  have hn := le_toI32 msg.size
  exact .bind (readInto_step (by omega) (by omega) c₁) fun _ c₂ _ => .refl c₂

theorem writeLocal_step (host : Host) (lpath bytes : List UInt8) (c : Client) :
    Step limit p c (writeLocal host lpath bytes c).snd := by
  rw [writeLocal]
  split
  case isTrue  => exact .refl c
  case isFalse => exact call_step (by simp) c

theorem receiveFile_step (hl : syncDataMax ≤ limit) (lpath : List UInt8) (fuel : Nat) (msg : Header)
    (c : Client) : Step limit p c (receiveFile host lpath fuel msg c).snd := by
  induction fuel generalizing msg c
  case zero => exact .refl c
  case succ fuel hi =>
    rw [receiveFile]
    split
    case isTrue => exact .refl c
    split
    case isTrue => exact remoteError_step (le_trans (by decide) hl) lpath msg c
    refine .bind (readCounted_step hl _ c) fun buffer c₁ _ => ?_
    refine .bind (writeLocal_step host lpath buffer c₁) fun written c₂ _ => ?_
    split
    case isTrue  => exact .bind (readx_step 8 c₂) fun _ c₃ _ => hi _ c₃
    case isFalse => exact .refl c₂

theorem receive_step (hp : p lpath) (msg : Header) (c : Client) :
    Step syncDataMax p c (receive host lpath msg c).snd := by
  rw [receive]
  split
  case isFalse => exact remoteError_step (by decide) lpath msg c
  refine .bind (call_step (by simp) c) fun _ c₁ _ => ?_
  refine .bind (mkdirs_step host lpath c₁) fun _ c₂ _ => ?_
  refine .bind (call_step (fun path h => LocalCall.creat.inj h ▸ hp) c₂) fun created c₃ _ => ?_
  split
  case isTrue  => exact receiveFile_step le_rfl lpath _ _ c₃
  case isFalse => exact .refl c₃

theorem sizeRequest_step (rpath : List UInt8) (c : Client) : Step limit p c (sizeRequest rpath c).snd := by
  refine .bind (writex_step _ c) fun _ c₁ _ => .bind (writex_step _ c₁) fun _ c₂ _ => ?_
  refine .bind (readx_step 16 c₂) fun msg c₃ _ => ?_
  split <;> exact .refl c₃

theorem syncRecv_step (hp : p lpath) (rpath : List UInt8) (showProgress : Bool) (c : Client) :
    Step syncDataMax p c (syncRecv host rpath lpath showProgress c).snd := by
  rw [syncRecv]
  split
  case isTrue => exact .refl c
  refine .bind ?_ fun _ c₁ _ => .bind (writex_step _ c₁) fun _ c₂ _ => ?_
  · split
    case isTrue  => exact sizeRequest_step rpath c
    case isFalse => exact .refl c
  refine .bind (writex_step _ c₂) fun _ c₃ _ => .bind (readx_step 8 c₃) fun msg c₄ _ => ?_
  exact receive_step hp _ c₄

theorem pullFiles_step (hp : ∀ ci ∈ filelist, p ci.dst) (c : Client) :
    Step syncDataMax p c (pullFiles host copyAttrs filelist c).snd := by
  induction filelist generalizing c
  case nil => exact .refl c
  case cons ci filelist hi =>
    have hi := hi fun ci hc => hp ci (mem_cons_of_mem _ hc)
    rw [pullFiles]
    split
    case isTrue => exact hi c
    refine .bind (syncRecv_step (hp ci mem_cons_self) _ _ c) fun _ c₁ _ => ?_
    split
    case isFalse => exact hi c₁
    refine .bind (call_step (by simp) c₁) fun set c₂ _ => ?_
    split
    case isTrue  => exact hi c₂
    case isFalse => exact .refl c₂

theorem copyRemoteDirLocal_step (c : Client)
    (ht : Tame (copyRemoteDirLocal host rpath lpath copyAttrs c).snd) :
    Step syncDataMax (Inside (withSlash lpath)) c
      (copyRemoteDirLocal host rpath lpath copyAttrs c).snd := by
  rw [copyRemoteDirLocal] at ht ⊢
  split at ht
  case isTrue h  => exact if_pos h ▸ .refl c
  case isFalse h =>
    rw [if_neg h, get_bind]
    rw [get_bind] at ht
    refine .bind (remoteBuildList_step _ _ _ _ c) fun filelist c₁ hl => ?_
    rw [bind_of_some hl] at ht
    have ht₁ := ht.before (pullFiles_step (p := fun _ => True) (fun _ _ => trivial) c₁)
    refine pullFiles_step (fun ci hc => ?_) c₁
    exact (remoteBuildList_inside hl ht₁ ci hc).resolve_left not_mem_nil

-- The names that a LIST reply can carry.
structure Name where
  val   : List UInt8
  noNul : 0 ∉ val
  fits  : val.length ≤ 256

-- A new connection to a device, with all that this is going to send.
def connected (sent : List UInt8) (limit : Option Nat) : Client where
  input  := sent
  output := []
  device := limit
  calls  := []
  heard  := []
  huge   := false

-- The device has listed objects under no other names than these.
def Lists (names : Set Name) (c : Client) : Prop :=
  ∀ d, .dent d ∈ c.heard → d.kept → ∃ n ∈ names, n.val = d.name

-- Each file opened for writing is below the directory.
def StaysInside (lpath : List UInt8) (c : Client) : Prop :=
  ∀ path, .creat path ∈ c.calls → Inside (withSlash lpath) path

theorem staysInside_of_lists (hb : ∀ n ∈ names, Below n.val)
    (hl : Lists names (copyRemoteDirLocal host rpath lpath copyAttrs (connected sent n)).snd) :
    StaysInside lpath (copyRemoteDirLocal host rpath lpath copyAttrs (connected sent n)).snd := by
  have hs := copyRemoteDirLocal_step (connected sent n) fun d hd hk => by
    obtain ⟨n, hn, he⟩ := hl d hd hk
    exact he ▸ hb n hn
  exact fun path hp => (hs.creat path hp).resolve_left not_mem_nil

-- The entry of a regular file, the end of a list, and a file without any data.
def listOf (name : List UInt8) : List UInt8 :=
  (le 4 idDent ++ (le 4 0o100644 ++ (le 4 0 ++ (le 4 0 ++ le 4 name.length)))) ++ (name ++
    ((le 4 idDone ++ List.replicate 16 0) ++ Header.encode ⟨idDone, 0⟩))

theorem word_zero (h : n < 256 ^ 4) : word (le 4 n ++ l) 0 = n := by
  rw [word, mul_zero, drop_zero, take_left' (le_length ..), fromLe_le]
  exact mod_eq_of_lt h

theorem word_succ (n i : Nat) : word (le 4 n ++ l) (i + 1) = word l i := by
  have hd : (le 4 n ++ l).drop (4 * (i + 1)) = l.drop (4 * i) := by
    rw [show 4 * (i + 1) = (le 4 n).length + 4 * i by simp; omega, drop_append]
    simp
  rw [word, word, hd]

theorem readx_front (h : c.input = l ++ rest) (hn : l.length = n) :
    Client.readx n c = (some l, { c with input := rest }) := by
  rw [Client.readx, if_pos (by simp [h, ← hn]), h, ← hn]
  simp

theorem hear_bind (h : Heard) (f : Unit → Talk α) (c : Client) :
    (hear h >>= f) c = f () { c with heard := c.heard ++ [h] } :=
  rfl

theorem call_bind (host : Host) (f : LocalCall) (g : Bool → Talk α) (c : Client) :
    (Client.call host f >>= g) c = g (host.reply c.calls f) { c with calls := c.calls ++ [f] } :=
  rfl

theorem readCounted_front (h : c.input = l ++ rest) (hl : l.length ≤ m) (hi : m < 2 ^ 31) :
    readCounted m l.length c =
      (some l, { c with input := rest, heard := c.heard ++ [.stored l.length] }) := by
  have ht : toI32 l.length = l.length := if_pos (by omega)
  have hu : toU64 l.length = l.length := by
    rw [toU64]
    omega
  have hm : min l.length c.input.length = l.length := by
    rw [h, length_append]
    omega
  rw [readCounted, ht, if_neg (by omega), readInto, get_bind, hu, hm,
    if_neg (by rw [ssizeMax]; omega), hear_bind]
  exact readx_front h rfl

theorem listEntries_listOf (name : Name) (h : c.input = listOf name.val) :
    listEntries (fuel + 2) [] c = (some [⟨0o100644, 0, 0, name.val⟩], { c with
      input := encode ⟨idDone, 0⟩
      heard := c.heard ++ [.stored name.val.length, .dent ⟨0o100644, 0, 0, name.val⟩] }) := by
  obtain ⟨name, hz, hn⟩ := name
  have hlt : name.length < 256 ^ 4 := by omega
  rw [listEntries, bind_of_some (readx_front h (by simp))]
  rw [word_zero (by decide), if_neg (by decide), if_neg (by simp)]
  simp only [word_succ]
  rw [word_zero (by decide), word_zero (by decide), word_zero (by decide)]
  rw [← append_nil (le 4 name.length), word_zero hlt]
  rw [bind_of_some (readCounted_front (by exact rfl) hn (by decide)), hear_bind]
  rw [ofBuffer_of_not_mem hz]
  rw [listEntries, bind_of_some (readx_front (by exact rfl) (by simp))]
  rw [word_zero (by decide), if_pos rfl]
  simp [pure_apply]

theorem mkdirsLoop_eq (host : Host) (front path : List UInt8) (c : Client) :
    ∃ calls, Client.mkdirsLoop host front path c = (some (), { c with calls := calls }) := by
  induction path generalizing front c
  case nil => exact ⟨c.calls, rfl⟩
  case cons b path hi =>
    rw [Client.mkdirsLoop]
    split
    case isFalse => exact hi _ c
    rw [call_bind]
    split
    case isTrue  => exact hi _ { c with calls := c.calls ++ [.mkdir front] }
    case isFalse => exact ⟨c.calls ++ [.mkdir front], rfl⟩

theorem mkdirs_eq (host : Host) (path : List UInt8) (c : Client) :
    ∃ calls, Client.mkdirs host path c = (some (), { c with calls := calls }) := by
  cases path
  case nil => exact ⟨c.calls, rfl⟩
  case cons b path => exact mkdirsLoop_eq host [b] path c

theorem receive_done (host : Host) (lpath : List UInt8) (c : Client) :
    ∃ r calls, receive host lpath ⟨idDone, 0⟩ c = (r, { c with calls := calls ++ [.creat lpath] }) := by
  rw [receive, if_pos (.inr rfl), call_bind]
  obtain ⟨calls, hm⟩ := mkdirs_eq host lpath { c with calls := c.calls ++ [.unlink lpath] }
  rw [bind_of_some hm, call_bind]
  split
  case isTrue  => exact ⟨some (), calls, rfl⟩
  case isFalse => exact ⟨none, calls, rfl⟩

theorem writex_writex (h : c.device = none) (f : Unit → Talk α) :
    (writex bytes₁ >>= fun _ => writex bytes₂ >>= f) c =
      f () { c with output := c.output ++ bytes₁ ++ bytes₂ } := by
  have hw {bytes} {c : Client} (h : c.device = none) :
      writex bytes c = (some (), { c with output := c.output ++ bytes }) := by
    rw [writex, h]
  rw [bind_of_some (hw h)]
  exact bind_of_some (hw h)

theorem syncLs_listOf (name : Name) (hp : path.length ≤ 1024) (hd : c.device = none)
    (h : c.input = listOf name.val) :
    ∃ out, syncLs path c = (some [⟨0o100644, 0, 0, name.val⟩], { c with
      input  := encode ⟨idDone, 0⟩
      output := out
      heard  := c.heard ++ [.stored name.val.length, .dent ⟨0o100644, 0, 0, name.val⟩] }) := by
  rw [syncLs, if_neg (by omega), writex_writex hd, get_bind]
  obtain ⟨n, hn⟩ : ∃ n, c.input.length = n + 1 := by
    rw [h]
    exact ⟨_, succ_pred_eq_of_pos (by simp [listOf]) |>.symm⟩
  rw [hn]
  exact ⟨_, listEntries_listOf name h⟩

theorem remoteBuildList_listOf (fuel : Nat) (lpath : List UInt8) (name : Name)
    (hp : rpath.length ≤ 1024) (hd : c.device = none) (h : c.input = listOf name.val) :
    ∃ ci c₁, remoteBuildList (fuel + 1) [] rpath lpath c = (some [ci], c₁) ∧ ci.flag = false ∧
      ci.src = rpath ++ name.val ∧ ci.dst = lpath ++ name.val ∧ c₁.device = none ∧
      c₁.input = encode ⟨idDone, 0⟩ ∧
      c₁.heard = c.heard ++ [.stored name.val.length, .dent ⟨0o100644, 0, 0, name.val⟩] := by
  obtain ⟨out, hl⟩ := syncLs_listOf name hp hd h
  have hb : syncLsBuildListCb rpath lpath ([], []) ⟨0o100644, 0, 0, name.val⟩ =
      ([{ mkcopyinfo rpath lpath name.val false with mode := 0o100644 }], []) := by
    rw [syncLsBuildListCb]
    dsimp only
    rw [if_neg (by decide), if_pos (by decide)]
    rfl
  rw [remoteBuildList, bind_of_some hl, foldl_cons, foldl_nil, hb]
  exact ⟨_, _, rfl, rfl, append_nil _, append_nil _, hd, rfl, rfl⟩

theorem syncRecv_done (hp : rpath.length ≤ 1024) (hd : c.device = none)
    (h : c.input = encode ⟨idDone, 0⟩) :
    (syncRecv host rpath lpath false c).snd.heard = c.heard ∧
    .creat lpath ∈ (syncRecv host rpath lpath false c).snd.calls := by
  let out := c.output ++ encode ⟨idRecv, rpath.length⟩ ++ rpath
  have hr : Client.readx 8 { c with output := out } =
      (some (encode ⟨idDone, 0⟩), { c with input := [], output := out }) :=
    readx_front (h.trans (append_nil _).symm) (encode_length _)
  obtain ⟨r, calls, hd₁⟩ := receive_done host lpath { c with input := [], output := out }
  rw [syncRecv, if_neg (by omega), if_neg (by simp), bind_of_some (pure_apply () c), writex_writex hd,
    bind_of_some hr]
  rw [decode_encode (by decide) (by decide), hd₁]
  simp

-- A host on which nothing fails.
def obliging : Host where
  reply    := fun _ _ => true
  reads    := fun _ => none
  readlink := fun _ => none

theorem pull_listOf (name : Name) :
    let c := (copyRemoteDirLocal host [slash] [slash] false (connected (listOf name.val) none)).snd
    c.heard = [.stored name.val.length, .dent ⟨0o100644, 0, 0, name.val⟩] ∧
    .creat ([slash] ++ name.val) ∈ c.calls := by
  have hn := name.fits
  obtain ⟨ci, c₁, hl, hf, hs, ht, hd, hi, hh⟩ := remoteBuildList_listOf
    (c := connected (listOf name.val) none) (listOf name.val).length [slash] name
    (show [slash].length ≤ 1024 by decide) rfl rfl
  have hp : pullFiles host false [ci] = syncRecv host ci.src ci.dst false >>= fun _ => pure () := by
    rw [pullFiles, hf]
    rfl
  have hc : (copyRemoteDirLocal host [slash] [slash] false (connected (listOf name.val) none)).snd =
      (syncRecv host ci.src ci.dst false c₁).snd := by
    rw [copyRemoteDirLocal, if_neg (by simp), get_bind,
      ← bind_pure_snd (syncRecv host ci.src ci.dst false) (), ← hp]
    exact congrArg Prod.snd (bind_of_some hl)
  have hr : ci.src.length ≤ 1024 := by
    rw [hs, length_append, length_singleton]
    omega
  obtain ⟨hh₁, hm⟩ := @syncRecv_done host ci.src ci.dst c₁ hr hd hi
  rw [hc, ← ht]
  exact ⟨hh₁.trans hh, hm⟩

-- The names have to stay below their directory: nothing else is asked of the device.
theorem stays_inside_iff (names : Set Name) :
    (∀ host rpath lpath copyAttrs sent limit,
      let c := (copyRemoteDirLocal host rpath lpath copyAttrs (connected sent limit)).snd
      Lists names c → StaysInside lpath c) ↔
    ∀ n ∈ names, Below n.val := by
  constructor
  case mpr => exact fun hb _ _ _ _ _ _ hl => staysInside_of_lists hb hl
  case mp =>
    intro h n hn
    obtain ⟨hh, hc⟩ := @pull_listOf obliging n
    have hs := h obliging [slash] [slash] false (listOf n.val) none fun d hd _ => ?_
    · obtain ⟨rel, hp, hb⟩ := hs _ hc
      exact append_cancel_left hp ▸ hb
    · rw [hh] at hd
      exact ⟨n, hn, by simp_all⟩

-- A file that the device calls `../x` is created next to the directory.
theorem pulled_dotdot :
    let c := (copyRemoteDirLocal obliging (ofString "/sdcard") (ofString "dir") false
      (connected (listOf (ofString "../x")) none)).snd
    .creat (ofString "dir/../x") ∈ c.calls ∧ ¬ StaysInside (ofString "dir") c := by
  have hc : .creat (ofString "dir/../x") ∈ (copyRemoteDirLocal obliging (ofString "/sdcard")
      (ofString "dir") false (connected (listOf (ofString "../x")) none)).snd.calls := by
    decide +kernel
  refine ⟨hc, fun hs => ?_⟩
  obtain ⟨rel, hp, hb⟩ := hs _ hc
  have hr : ofString "dir/../x" = withSlash (ofString "dir") ++ ofString "../x" := by decide +kernel
  rw [← append_cancel_left (hr.symm.trans hp)] at hb
  exact (hb [dot, dot] (by decide +kernel)).right rfl

-- Whatever length the device sends, the buffers of `sync_recv` and of `sync_ls` are not overrun.
theorem stored_le_limit (hr : RefusesHuge c) :
    StoresAtMost syncDataMax c (syncRecv host rpath lpath showProgress c).snd ∧
    StoresAtMost 256 c (syncLs rpath c).snd := by
  obtain ⟨recv, hr₁, hs₁⟩ := (syncRecv_step (p := fun _ => True) trivial rpath showProgress c).heard
  obtain ⟨ls, hr₂, hs₂⟩ := (syncLs_step (p := fun _ => True) (le_refl 256) rpath c).heard
  exact ⟨⟨recv, hr₁, hs₁ hr⟩, ⟨ls, hr₂, hs₂ hr⟩⟩

-- A message with the length -1, before more bytes than the buffer takes.
theorem stored_le_limit_negative :
    let c := connected (encode ⟨idData, 2 ^ 32 - 1⟩ ++ List.replicate (syncDataMax + 1) 0) none
    RefusesHuge c ∧ StoresAtMost syncDataMax c (syncRecv obliging [] [slash] false c).snd ∧
      StoresAtMost 256 c (syncLs [] c).snd :=
  ⟨rfl, stored_le_limit rfl⟩

end Adb.Sync
