import Xxfs.Reserve

namespace Xxfs.Soundness

open Function
open Xxfs.DiskFormat Xxfs.Machine Xxfs.Allocator Xxfs.PageCache Xxfs.PagedIndex Xxfs.PageStore
open Xxfs.InodeCache Xxfs.DirCache Xxfs.Volume Xxfs.Operations Xxfs.Hash Xxfs.PathName Xxfs.IndexRep
open Xxfs.CacheMap Xxfs.IndexState Xxfs.OperationFrames Xxfs.Checksum Xxfs.CacheKeys Xxfs.Frames
open Xxfs.Lib Xxfs.Lib.Computation Xxfs.Lib.Computation.Comp Xxfs.Lib.Credits

section looks

variable {env : Env} (he : Healthy env) {K : Path → Prop} (hK : Names K) {m : Inodes} {fs : Fs}
  (h : Sound K m ∅ fs)

theorem osPread_pays (env : Env) (buf : ℕ → UInt8) (len : ℕ) (off : UInt64) (fs : Fs) :
    Pays Reserve 0 (osPread env buf len off) fs := by
  refine .after (a := fs.clock) rfl (draws_index (spares_sb rfl) rfl rfl) (.after rfl (.refl _ _) ?_)
  split
  · exact .pure _
  · exact .pure _

include he hK h

theorem Sound.fetch_draws {p : Path} (hp : K p) : ∃ fs',
    fetchInode env p fs = some (seen m fs p, fs') ∧ Draws Reserve 2 fs fs' := by
  obtain ⟨fs', hx, -, hF⟩ := h.fetch he hK (hK.untwinned hp) (hK.length_lt hp)
  exact ⟨fs', hx, draws_cell (spares_sb hF.sb) hF.others hF.dcache⟩

variable {path : Path} (hp : K (pathNormalize path))
include hp

theorem Sound.stat_pays : Pays Reserve 2 (xxfsStat env path) fs := by
  refine pays_locked fun l ↦ ?_
  generalize pathNormalize path = p at *
  have hs := (h.relock l).sound
  have hcache := hs.cacheGet (hK.untwinned hp)
  refine .after (a := { fs with lock := l }) rfl (.refl _ _) ?_
  rw [hcache]
  cases cell { fs with lock := l }.icache p with
  | some x => exact (pays_unlock .read _).le reserve_antitone (Nat.zero_le 2)
  | none =>
    obtain ⟨fs₁, hget, hs₁, hk, hsb, -⟩ := hs.indexGet he (hK.length_lt hp)
    refine .after hget (draws_index (spares_sb hsb) hk.only.icache hk.only.dcache) ?_
    cases m p with
    | none => exact (pays_unlock .read _).le reserve_antitone (Nat.zero_le 2)
    | some n =>
      have hput := put_pays he hK hs₁.settled hp n
      exact hput.bind (k := 0) reserve_antitone fun _ _ _ _ ↦ pays_unlock .read _

theorem Sound.readlink_pays (buf : ℕ → UInt8) (len : UInt32) :
    Pays Reserve 2 (xxfsReadlink env path buf len) fs := by
  refine (h.stat_pays he hK hp).bind (k := 0) reserve_antitone fun r fs₁ _ _ ↦ ?_
  cases r with
  | error rc => exact .pure _
  | ok n =>
    dsimp only
    split
    · exact .pure _
    · exact .pure _

theorem Sound.read_pays (buf : ℕ → UInt8) (off : UInt64) (len : UInt32) :
    Pays Reserve 2 (xxfsRead env path buf off len) fs := by
  rw [xxfsRead]
  split
  · exact (Pays.pure _).le reserve_antitone (Nat.zero_le 2)
  refine pays_locked fun l ↦ ?_
  obtain ⟨fs₁, hx, hdraw⟩ := (h.relock l).sound.fetch_draws he hK hp
  refine .seq (k := 0) hx hdraw ?_
  cases seen m { fs with lock := l } (pathNormalize path) with
  | none => exact pays_unlock .read _
  | some n =>
    dsimp only
    split
    · exact pays_unlock .read _
    split
    · exact pays_unlock .read _
    split
    · refine (osPread_pays env _ _ _ fs₁).andThen reserve_antitone fun r fs₂ _ _ ↦ ?_
      cases r with
      | none => exact pays_unlock .read _
      | some x => exact pays_unlock .read _
    · exact pays_unlock .read _

end looks

section entries

variable {env : Env} (he : Healthy env) {K : Path → Prop} (hK : Names K) {m : Inodes} {fs : Fs}
  (h : Sound K m ∅ fs) {p : Path} {n : Inode}
include he hK h

theorem Sound.makeEntry_pays (hp : K p) (hv : Vacant m fs p) (hn : Hollow n) (type : UInt8)
    {count : Super → Super} (hcount : Counts (· + 1) count) :
    Pays Reserve 9 (makeEntry env p n type count) fs := by
  intro ha
  obtain ⟨L, hb⟩ := h.backed
  have ha₂ : Ample 2 fs := ha.ample.mono (by decide)
  obtain ⟨fs₁, hins, hsp⟩ := insert_returns he hK hb hp hn.whole hv.absent ha₂
  obtain ⟨rc, fs₂, hins', hgood⟩ :=
    h.insertBoth he hK hp (hv.fits h hn) hn.whole ha₂.live hv.absent
  obtain ⟨rfl, rfl⟩ := Prod.mk.inj (Option.some.inj (hins.symm.trans hins'))
  obtain ⟨-, fs₂, hput, hsb₂, hR⟩ := hgood (hsp.live ha₂)
  have hio := pagedInsert_indexOnly (P := fun _ ↦ True) env p trivial _ _ _ hins
  have hdraw₁ : Draws Reserve 2 fs fs₁ := draws_index hsp hio.icache hio.dcache
  have hdraw₂ : Draws Reserve 2 fs₁ fs₂ := by
    refine draws_cell (p := p) (spares_sb hsb₂) (fun q hq ↦ ?_) (hR.dcache.trans hio.dcache.symm)
    rw [hR.cells, update_of_ne hq, hio.icache]
  obtain ⟨x, hx, htx⟩ := kind_some hv.parent
  have hne : getParentPath p ≠ p := by
    intro hc
    rw [hc, hv.absent] at hx
    cases hx
  have hadd := (hR.sound.dirAddChild_pays he hK (hK.parent p hp) ((update_of_ne hne _ _).trans hx) htx
    (getBasename p) type).map (const Rc ())
  have hend : Pays Reserve 5 (discard (dirAddChild env (getParentPath p) (getBasename p) type) >>=
      fun _ ↦ FsM.modify (fun fs ↦ { fs with sb := count fs.sb }) >>= fun _ ↦ wreturn Rc.ok) fs₂ := by
    refine hadd.bind (k := 0) reserve_antitone fun _ fs₃ _ _ ↦ ?_
    obtain ⟨hD, hB, hF, -⟩ := hcount.pool fs₃.sb
    exact .after rfl (draws_index (spares_same hD hB hF) rfl rfl) (pays_unlock .write _)
  refine Pays.seq (j := 2) (k := 7) hins hdraw₁ ?_ ha
  simp only [↓reduceIte]
  exact .seq (j := 2) (k := 5) hput hdraw₂ hend

theorem Sound.makes_pays {g : UInt64 → Inode} (type : UInt8) {count : Super → Super}
    (hp : K p) (hv : cell fs.icache p = none → Vacant m fs p) (hn : ∀ gen, Hollow (g gen))
    (hcount : Counts (· + 1) count) : Pays Reserve 9 (do
      fsWlock
      let fs ← FsM.get
      if (icacheLookup fs.icache (xxh64 p)).isSome then wreturn .eexist
      else makeEntry env p (g fs.cowGen) type count : FsM Rc) fs := by
  refine pays_locked fun l ↦ .after (a := { fs with lock := l }) rfl (.refl _ _) ?_
  have hlook := h.lookup_isSome hK hp
  cases hc : cell fs.icache p with
  | some e =>
    rw [hc] at hlook
    simp only [hlook, Option.isSome_some, ↓reduceIte]
    exact (pays_unlock .write _).le reserve_antitone (Nat.zero_le 9)
  | none =>
    rw [hc] at hlook
    simp only [hlook, Option.isSome_none, Bool.false_eq_true, ↓reduceIte]
    exact (h.relock l).sound.makeEntry_pays he hK hp ((hv hc).relock l) (hn _) type hcount

theorem Sound.create_pays {path : Path} (mode uid gid : UInt16) (hp : K (pathNormalize path))
    (hv : cell fs.icache (pathNormalize path) = none → Vacant m fs (pathNormalize path)) :
    Pays Reserve 9 (xxfsCreate env path mode uid gid) fs := by
  have hpays := h.makes_pays he hK (g := createdInode (pathNormalize path) mode uid gid) ftReg.toUInt8
    hp hv (fun _ ↦ hollow_sealed rfl rfl rfl) counts_file
  exact hpays

theorem Sound.mkdir_pays {path : Path} (mode uid gid : UInt16) (hp : K (pathNormalize path))
    (hv : cell fs.icache (pathNormalize path) = none → Vacant m fs (pathNormalize path)) :
    Pays Reserve 9 (xxfsMkdir env path mode uid gid) fs := by
  have hpays := h.makes_pays he hK (g := madeDirInode (pathNormalize path) mode uid gid)
    ftDir.toUInt8 hp hv (fun _ ↦ hollow_sealed rfl rfl rfl) counts_dir
  exact hpays

end entries

section removal

variable {env : Env} (he : Healthy env) {K : Path → Prop} (hK : Names K) {m : Inodes} {fs : Fs}
  (h : Sound K m ∅ fs)
include he hK h

theorem Sound.deleted_draws {p : Path} {n : Inode} (hp : K p) (hn : m p = some n)
    (hleaf : Leaf K m fs p) : ∃ fs₁ fs₂, pagedDel env p fs = some (.ok, fs₁) ∧
      icacheDel (xxh64 p) fs₁ = some ((), fs₂) ∧ Sound K (update m p none) ∅ fs₂ ∧
      Draws Reserve 0 fs fs₂ := by
  obtain ⟨fs₁, fs₂, hdel, hcache, hs, -, hd, -, hsb⟩ := h.deleted he hK hp hn hleaf
  have hi : fs₁.icache = fs.icache := (pagedDel_indexOnly (P := fun _ ↦ True) env p _ _ _ hdel).icache
  have hset : Settled K fs₁.icache := by
    rw [hi]
    exact h.settled
  have hroom : Roomy K (dropped fs₁.icache p) := by
    rw [hi]
    exact hleaf.loose.frees _ .refl
  obtain ⟨c, hcache', -, hcell⟩ := icacheDel_apply hK.distinct hset hp hroom
  obtain ⟨-, rfl⟩ := Prod.mk.inj (Option.some.inj (hcache.symm.trans hcache'))
  refine ⟨fs₁, _, hdel, hcache, hs ∅ (Set.empty_subset _), draws_clean (spares_sb hsb) ?_
    (dirtyDirs_congr hd).subset⟩
  rintro q ⟨x, hx⟩
  dsimp only at hx
  rw [hcell, hi] at hx
  by_cases hq : q = p
  · rw [hq, update_self] at hx
    cases hx
  · rw [update_of_ne hq] at hx
    exact ⟨x, hx⟩

theorem Sound.removeEntry_pays {p : Path} {n : Inode} (hp : K p) (hn : m p = some n)
    (hleaf : Leaf K m fs p) : Pays Reserve 5 (removeEntry env p) fs := by
  obtain ⟨fs₁, fs₂, hdel, hcache, hs, hdraw⟩ := h.deleted_draws he hK hp hn hleaf
  obtain ⟨x, hx, htx⟩ := kind_some (h.tree.parent p hleaf.ne_root (by rw [kind, hn]; simp))
  have hne : getParentPath p ≠ p := hleaf.childless p hleaf.ne_root (by rw [hn]; simp)
  have hrem := (hs.dirRemoveChild_pays he hK (hK.parent p hp) ((update_of_ne hne _ _).trans hx) htx
    (getBasename p)).map (const Rc ())
  have hend : Pays Reserve 5 (discard (dirRemoveChild env (getParentPath p) (getBasename p)) >>=
      fun _ ↦ FsM.modify (fun fs ↦ { fs with sb.sInodesCount := fs.sb.sInodesCount - 1 }) >>=
        fun _ ↦ (pure Rc.ok : FsM Rc)) fs₂ := by
    refine hrem.bind (k := 0) reserve_antitone fun _ fs₃ _ _ ↦ ?_
    exact .after rfl (draws_index (spares_same rfl rfl rfl) rfl rfl) (.pure _)
  intro ha
  obtain ⟨rc, fs₃, hx₃, hdraw₃⟩ := hend (hdraw 5 (by rwa [Nat.zero_add]))
  refine ⟨rc, fs₃, ?_, ?_⟩
  · rw [removeEntry, bind_apply, hdel, Option.bind_some]
    simp only [↓reduceIte]
    rw [bind_apply, hcache, Option.bind_some]
    exact hx₃
  · rw [← Nat.zero_add 5]
    exact hdraw.trans hdraw₃

omit hK in
theorem Sound.superWrite_pays : Pays Reserve 0 (Volume.superWrite env) fs := by
  obtain ⟨fs', hx, -, -, -, ho⟩ := h.superWrite he
  exact .of_eq hx (draws_index (spares_same ho.off ho.count ho.free) ho.only.icache ho.only.dcache)

variable {path : Path} (hp : K (pathNormalize path))
include hp

theorem Sound.unlink_pays
    (hone : kind m (pathNormalize path) ≠ some ftDir → Loose K fs (pathNormalize path)) :
    Pays Reserve 7 (xxfsUnlink env path) fs := by
  refine pays_locked fun l ↦ ?_
  generalize pathNormalize path = p at *
  obtain ⟨fs₁, hx, hdraw⟩ := (h.relock l).sound.fetch_draws he hK hp
  obtain ⟨fs₂, hx', hL, hloose⟩ := h.fetchLocked he hK (hK.untwinned hp) (hK.length_lt hp) l
  obtain ⟨hseen, rfl⟩ := Prod.mk.inj (Option.some.inj (hx.symm.trans hx'))
  refine .seq (k := 5) hx hdraw ?_
  rw [hseen]
  cases hn : seen m fs p with
  | none => exact (pays_unlock .write _).le reserve_antitone (Nat.zero_le 5)
  | some n =>
    dsimp only
    split
    · exact (pays_unlock .write _).le reserve_antitone (Nat.zero_le 5)
    · rename_i ht
      obtain ⟨x, hmx, htx⟩ := h.stored_some hn
      have hs : Loose K fs p := hone (by rw [kind, hmx]; simpa [htx] using ht)
      have hleaf := h.leaf_file hmx (htx ▸ ht) hs
      exact (hL.sound.removeEntry_pays he hK hp hmx ⟨hleaf.ne_root, hleaf.childless, hloose hs⟩).bind
        (k := 0) reserve_antitone fun _ _ _ _ ↦ pays_unlock .write _

theorem Sound.rmdir_pays
    (hleaf : kind m (pathNormalize path) = some ftDir → Leaf K m fs (pathNormalize path)) :
    Pays Reserve 7 (xxfsRmdir env path) fs := by
  rw [xxfsRmdir]
  generalize pathNormalize path = p at *
  split
  · exact (Pays.pure _).le reserve_antitone (Nat.zero_le 7)
  refine pays_locked fun l ↦ ?_
  obtain ⟨fs₁, hx, hdraw⟩ := (h.relock l).sound.fetch_draws he hK hp
  obtain ⟨fs₂, hx', hL, hloose⟩ := h.fetchLocked he hK (hK.untwinned hp) (hK.length_lt hp) l
  obtain ⟨hseen, rfl⟩ := Prod.mk.inj (Option.some.inj (hx.symm.trans hx'))
  refine .seq (k := 5) hx hdraw ?_
  rw [hseen]
  cases hn : seen m fs p with
  | none => exact (pays_unlock .write _).le reserve_antitone (Nat.zero_le 5)
  | some n =>
    dsimp only
    split
    · exact (pays_unlock .write _).le reserve_antitone (Nat.zero_le 5)
    · rename_i ht
      obtain ⟨x, hmx, htx⟩ := h.stored_some hn
      have hs : Leaf K m fs p := hleaf (by rw [kind, hmx]; simpa [htx] using ht)
      have hleaf₁ : Leaf K m fs₁ p := ⟨hs.ne_root, hs.childless, hloose hs.loose⟩
      refine (hL.sound.removeEntry_pays he hK hp hmx hleaf₁).bind (k := 0) reserve_antitone
        fun rc fs₂ hrem ha ↦ .after (a := fs₂) rfl (.refl _ _) ?_
      obtain ⟨-, -, m', hs', -⟩ := hL.sound.removes he hK hp hmx hleaf₁ hrem ha.ample.live
      split
      · exact (hs'.superWrite_pays he).andThen reserve_antitone fun _ _ _ _ ↦ pays_unlock .write _
      · exact pays_unlock .write _

end removal

section stores

variable {env : Env} (he : Healthy env) {K : Path → Prop} (hK : Names K) {m : Inodes} {fs fs' : Fs}
  (h : Sound K m ∅ fs)

theorem Filed.draws {p : Path} {n : Inode} (hF : Filed K m p n fs fs') : Draws Reserve 4 fs fs' :=
  draws_cell hF.spares (fun q hq ↦ by rw [hF.cells, update_of_ne hq]) hF.dcache

include he hK h

theorem Sound.setAttr_pays (set : Inode → Inode) {path : Path} (hp : K (pathNormalize path)) :
    Pays Reserve 4 (Operations.setAttr env set path) fs := by
  cases hn : m (pathNormalize path) with
  | none =>
    refine pays_locked fun l ↦ ?_
    obtain ⟨fs₁, hget, -, hk, hsb, -⟩ := (h.relock l).sound.indexGet he (hK.length_lt hp)
    rw [hn] at hget
    exact .after hget (draws_index (spares_sb hsb) hk.only.icache hk.only.dcache)
      ((pays_unlock .write _).le reserve_antitone (Nat.zero_le 4))
  | some n =>
    intro ha
    obtain ⟨now, fs₁, hx, hF⟩ : ∃ now fs₁, Operations.setAttr env set path fs = some (.ok, fs₁) ∧ _ :=
      h.basis.setAttr he hK hp hn (ha.ample.mono (by decide))
    exact ⟨.ok, fs₁, hx, hF.draws⟩

theorem Sound.symlink_pays (target : Path) {linkpath : Path} (hp : K (pathNormalize linkpath)) :
    Pays Reserve 4 (xxfsSymlink env target linkpath) fs := by
  by_cases hlong : target.length > inlineMax
  · rw [xxfsSymlink, if_pos hlong]
    exact (Pays.pure _).le reserve_antitone (Nat.zero_le 4)
  cases hn : seen m fs (pathNormalize linkpath) with
  | none =>
    have hm := (cur_none (h.coherent _)).mp hn
    have hc : cell fs.icache (pathNormalize linkpath) = none := by
      cases hc : cell fs.icache (pathNormalize linkpath) with
      | none => rfl
      | some x =>
        rw [seen, cur, hc] at hn
        cases hn
    intro ha
    obtain ⟨now, fs₁, hx, hF⟩ : ∃ now fs₁, xxfsSymlink env target linkpath fs = some (.ok, fs₁) ∧ _ :=
      h.basis.symlink he hK hp hc hm (Nat.le_of_not_lt hlong) (ha.ample.mono (by decide))
    exact ⟨.ok, fs₁, hx, hF.draws⟩
  | some n =>
    rw [xxfsSymlink, if_neg hlong]
    refine pays_locked fun l ↦ ?_
    have hL := h.relock l
    obtain ⟨fs₁, hx, hdraw⟩ := hL.sound.fetch_draws he hK hp
    rw [hL.seen, hn] at hx
    exact (Pays.seq (k := 0) hx hdraw (pays_unlock .write _)).le reserve_antitone (by decide)

theorem Sound.rename_pays {oldPath newPath : Path} (hold : K (pathNormalize oldPath))
    (hnew : K (pathNormalize newPath))
    (hleaf : m (pathNormalize oldPath) ≠ none → Leaf K m fs (pathNormalize oldPath)) :
    Pays Reserve 4 (xxfsRename env oldPath newPath) fs := by
  rw [xxfsRename]
  generalize pathNormalize oldPath = old at *
  generalize pathNormalize newPath = new at *
  refine pays_locked fun l ↦ ?_
  have hL₀ := h.relock l
  obtain ⟨fs₁, hget, hs₁, hk, hsb, hone⟩ := hL₀.sound.indexGet he (hK.length_lt hold)
  refine .after hget (draws_index (spares_sb hsb) hk.only.icache hk.only.dcache) ?_
  cases hm : m old with
  | none => exact (pays_unlock .write _).le reserve_antitone (Nat.zero_le 4)
  | some n =>
    obtain ⟨hroot, hchildless, hsingle, hfrees⟩ := hleaf (by rw [hm]; simp)
    have hs₂ := (hs₁.atClock (fs₁.clock + 1)).sound
    have hleaf₂ : Leaf K m { fs₁ with clock := fs₁.clock + 1 } old := by
      refine ⟨hroot, hchildless, fun L hL ↦ ?_, ?_⟩
      · exact hone old (h.single_relock hsingle l) L (hL.same rfl rfl rfl rfl)
      · have hio := hk.only.icache
        dsimp only at hio ⊢
        rwa [hio]
    obtain ⟨fs₃, fs₄, hdel, hcache, hs₄, hdraw₄⟩ := hs₂.deleted_draws he hK hold hm hleaf₂
    have htime : Draws Reserve 0 fs₁ { fs₁ with clock := fs₁.clock + 1 } :=
      draws_index (spares_sb rfl) rfl rfl
    intro ha
    have ha₄ : Reserve 4 fs₄ := (htime.trans hdraw₄) 4 ha
    obtain ⟨fs₅, fs₆, hput, hput', hF⟩ := hs₄.basis.stores he hK hnew
      (sealed_inodeSetChecksumEcc _ : Sealed (renamedInode n new (env.time fs₁.clock)))
      (ha₄.ample.mono (by decide))
    obtain ⟨l', hun⟩ := unlocked_eq .write fs₆ Rc.ok
    have hall := ((htime.trans hdraw₄).trans hF.draws).trans (draws_lock l')
    refine ⟨.ok, { fs₆ with lock := l' }, ?_, hall⟩
    simp only [answered, bind_apply, osTime_apply, Option.bind_some, discard_apply, hdel, hcache, hput,
      ↓reduceIte, hput']
    exact hun

end stores

section writes

variable {env : Env} (he : Healthy env) {K : Path → Prop} (hK : Names K) {m : Inodes} {S : Set ℕ}
  {fs fs₁ : Fs} (h : Sound K m ∅ fs) {p : Path} {n n₁ : Inode} {buf : ℕ → UInt8} {off : UInt64}
  {len : UInt32}

theorem leaveInline_cost (hl : Live fs) {r : Except Rc Inode}
    (hx : leaveInline env n fs = some (r, fs₁)) : Cost 1 fs fs₁ := by
  rw [leaveInline] at hx
  split at hx
  · exact allocWrite_cost hl hx
  · obtain ⟨-, rfl⟩ := Prod.mk.inj (Option.some.inj hx)
    exact cost_of_sb rfl 1

theorem growExtent_first {k : UInt64} (hb : n.iBlocks = 0) (h0 : k ≠ 0)
    (hk : k ≤ fs.sb.sFreeBlocks) (hne : nextOff fs.sb ≠ 0) : growExtent env n k fs =
      some (.ok (withBlocks n (nextOff fs.sb) k.toUInt32 k), { fs with sb := taken fs.sb k }) := by
  rw [growExtent, if_pos (by rw [hb]; exact UInt64.pos_iff_ne_zero.mpr h0), bind_apply, hb,
    UInt64.sub_zero, pageAllocN_free env h0 hk, Option.bind_some]
  dsimp only
  rw [if_neg hne, if_neg (fun hc ↦ absurd hc.1 (by decide))]
  rfl

def writeCost (off : UInt64) (len : UInt32) : ℕ := (off.toNat + len.toNat + 4095) / 4096

include he hK h

theorem Sound.writeTail_pays (hp : K p) (hn : seen m fs p = some n)
    (hbound : off.toNat + len.toNat < 2 ^ 63) (ht : n.iFileType ≠ ftDir)
    (hr : Ready K m S n n₁ fs fs₁) (hroom : off.toNat + len.toNat ≤ n₁.iBlocks.toNat * 4096)
    (hlen : len ≠ 0) : Pays Reserve 2 (writeTail env p buf off len n₁) fs₁ := by
  obtain ⟨fs₂, fs₃, hwrite, -⟩ : ∃ fs₂ fs₃,
      osPwrite env buf len.toNat (n₁.iExtentOff + off) fs₁ = some (true, fs₂) ∧ _ :=
    h.writeReady he hK hp hn hbound ht hr hroom hlen
  have hio := osPwrite_indexOnly (P := fun _ ↦ True) env _ _ _ _ _ _ hwrite
  have hsb := (WriteStores.osPwrite_sameSb env _ _ _ _ _ _ hwrite).sb
  have hset : Settled K fs₂.icache := by
    rw [hio.icache]
    exact hr.sound.settled
  have hput := put_pays he hK hset hp { n₁ with iSize := maxSize n₁.iSize (off + len.toUInt64) }
  refine .after hwrite (draws_index (spares_sb hsb) hio.icache hio.dcache) ?_
  rw [if_pos rfl]
  exact hput.bind (k := 0) reserve_antitone fun _ _ _ _ ↦ pays_unlock .write _

theorem Sound.writeBlocks_pays (hp : K p) (hn : seen m fs p = some n) (ht : n.iFileType ≠ ftDir)
    (hlen : len ≠ 0) (htakes : Soundness.Takes n off len) (hend : inlineMax < off.toNat + len.toNat) :
    Pays Reserve (writeCost off len + 2) (writeBlocks env p buf off len n) fs := by
  have hbound := htakes.bound
  have he' := end_toNat hbound
  have hneed := blocksFor_toNat (e := off + len.toUInt64) (by omega)
  rw [he'] at hneed
  have h128 : inlineMax = 128 := rfl
  have hpos : 1 ≤ writeCost off len := by
    rw [writeCost]
    omega
  have hnoleave (hno : ¬(0 < n.iSize ∧ n.iBlocks = 0)) :
      leaveInline env n fs = some (.ok n, fs) := by
    rw [leaveInline, if_neg hno]
    rfl
  -- once the file has its blocks, its inode is cached anew
  have hdone {S : Set ℕ} {n₁ : Inode} {fs₁ : Fs} (hr : Ready K m S n n₁ fs fs₁)
      (hroom : off.toNat + len.toNat ≤ n₁.iBlocks.toNat * 4096) :
      Pays Reserve 2 (growTail env p buf off len n₁) fs₁ :=
    .after (growExtent_enough (by omega) fs₁) (.refl _ fs₁)
      (h.writeTail_pays he hK hp hn hbound ht hr hroom hlen)
  intro ha
  have hl : Live fs := ha.ample.live
  rcases htakes.room with ⟨hin, -⟩ | ⟨-, hb, hroom⟩ | ⟨-, hb, hroom⟩
  · omega
  · by_cases hs : n.iSize = 0
    · -- the first blocks of an empty file
      have h0 : blocksFor (off + len.toUInt64) ≠ 0 := by
        intro h0
        rw [h0] at hneed
        change 0 = _ at hneed
        omega
      have hk : blocksFor (off + len.toUInt64) ≤ fs.sb.sFreeBlocks := by
        have hfree := ha.ample.pool
        rw [writeCost] at hfree
        rw [UInt64.le_iff_toNat_le]
        omega
      have hgrow : growExtent env n (blocksFor (off + len.toUInt64)) fs = _ :=
        growExtent_first hb h0 hk (hl.nextOff_ne_zero h.pool)
      have hcost : Cost (writeCost off len) fs
          { fs with sb := taken fs.sb (blocksFor (off + len.toUInt64)) } :=
        ⟨_, hneed.le, hk, rfl⟩
      have ha₁ : Ample 2 _ := hcost.ample h.pool (Nat.add_comm 2 _ ▸ ha.ample)
      obtain ⟨n₁, hn₁, hb₁, hr⟩ := h.grown he hb hs h0 hgrow ha₁.live
      obtain rfl := Except.ok.inj hn₁
      have htail : Pays Reserve 2 (writeTail env p buf off len _) _ :=
        h.writeTail_pays he hK hp hn hbound ht hr (by rw [hb₁, hneed]; omega) hlen
      refine Pays.after (hnoleave (by simp [hs])) (.refl _ fs) ?_ ha
      exact .seq hgrow (draws_index (.of_cost hcost h.pool) rfl rfl) htail
    · -- the inline bytes move to a block first
      have hsmall : n.iSize.toNat ≤ inlineMax := by
        rcases (h.owned.shape p n hn).file ht with ⟨-, hsm⟩ | ⟨hpos, -⟩
        · exact hsm
        · rw [hb] at hpos
          cases hpos
      obtain ⟨n₁, fs₁, hleave, hb₁, hr⟩ := h.inlineLeft he hb hs hsmall hl
      have hone : n₁.iBlocks.toNat = 1 := by rw [hb₁]; rfl
      have hdraw : Draws Reserve 1 fs fs₁ :=
        draws_index (.of_cost (leaveInline_cost hl hleave) h.pool) hr.icache hr.dcache
      have hfit : off.toNat + len.toNat ≤ 4096 := hroom.resolve_left hs
      exact Pays.seq hleave (hdraw.le reserve_antitone hpos) (hdone hr (by omega)) ha
  · refine Pays.le (k := writeCost off len + 2) reserve_antitone ?_ (Nat.le_add_left 2 _) ha
    exact .after (hnoleave fun hc ↦ hb hc.2) (.refl _ fs) (hdone (h.ready_self hn hb) hroom)

theorem Sound.write_pays {path : Path} (hp : K (pathNormalize path))
    (htakes : len ≠ 0 → ∀ n, seen m fs (pathNormalize path) = some n → n.iFileType ≠ ftDir →
      Soundness.Takes n off len) :
    Pays Reserve (writeCost off len + 2) (xxfsWrite env path buf off len) fs := by
  rw [xxfsWrite]
  split
  · exact (Pays.pure _).le reserve_antitone (Nat.zero_le _)
  rename_i hlen
  generalize pathNormalize path = p at *
  refine pays_locked fun l ↦ ?_
  have hL := h.relock l
  obtain ⟨fs₁, hcur, hs₁, hk, hsb⟩ := hL.sound.current he hK hp
  refine .after hcur (draws_index (spares_sb hsb) hk.only.icache hk.only.dcache) ?_
  rw [hL.seen]
  cases hn : seen m fs p with
  | none => exact (pays_unlock .write _).le reserve_antitone (Nat.zero_le _)
  | some n =>
    dsimp only [answered]
    split
    · exact (pays_unlock .write _).le reserve_antitone (Nat.zero_le _)
    · rename_i ht
      have htake := htakes hlen n hn ht
      rw [end_toNat htake.bound]
      split
      · have hput := put_pays he hK hs₁.settled hp (inlined n buf off len)
        refine Pays.le (j := 2) reserve_antitone ?_ (Nat.le_add_left 2 _)
        exact hput.bind (k := 0) reserve_antitone fun _ _ _ _ ↦ pays_unlock .write _
      · rename_i hend
        have hn₁ : seen m fs₁ p = some n := by
          rw [seen_congr hk.only.icache]
          exact hn
        exact hs₁.writeBlocks_pays he hK hp hn₁ ht hlen htake (not_le.mp hend)

end writes

end Xxfs.Soundness
