import Xxfs.LinkRuns
import Xxfs.ReadAfterWrite
import Xxfs.TreeSpec

namespace Xxfs.TreeSpec

open Function
open Xxfs.DiskFormat Xxfs.Machine Xxfs.Volume Xxfs.InodeCache Xxfs.DirCache Xxfs.Operations
open Xxfs.PathName Xxfs.CacheMap Xxfs.IndexState Xxfs.FreshVolume Xxfs.NamespaceRuns Xxfs.Runs
open Xxfs.Checksum Xxfs.OperationFrames Xxfs.IndexRep
open Xxfs.Soundness Xxfs.Lib Xxfs.Lib.Splice Xxfs.Lib.Computation Xxfs.Lib.Computation.Comp

section code

def factsOf (n : Inode) : Facts :=
  if n.iFileType = ftDir then .dir else .leaf n.iFileType n.iMode n.iUid n.iGid n.iSize.toNat

variable (env : Env)

def Call.op : Call → Op
  | .create path mode uid gid => .create path mode uid gid
  | .mkdir path mode uid gid => .mkdir path mode uid gid
  | .unlink path => .unlink path
  | .rmdir path => .rmdir path
  | .stat path => .stat path
  | .write path buf off len => .write path buf off len
  | .read path buf off len => .read path buf off len
  | .chmod path mode => .chmod path mode
  | .chown path uid gid => .chown path uid gid
  | .utime path atime mtime => .utime path atime mtime
  | .rename old new => .rename old new
  | .symlink target linkpath => .symlink target linkpath
  | .readlink path buf len => .readlink path buf len
  | .sync => .sync
  | .remount flags => .remount flags

/-- The call as the code makes it. A failed remount leaves nothing to go on with. -/
def Call.run : Call → FsM Reply
  | .create path mode uid gid => Reply.code <$> xxfsCreate env path mode uid gid
  | .mkdir path mode uid gid => Reply.code <$> xxfsMkdir env path mode uid gid
  | .unlink path => Reply.code <$> xxfsUnlink env path
  | .rmdir path => Reply.code <$> xxfsRmdir env path
  | .stat path => (fun r ↦ Reply.facts (r.map factsOf)) <$> xxfsStat env path
  | .write path buf off len => Reply.code <$> xxfsWrite env path buf off len
  | .read path buf off len =>
    (fun r ↦ Reply.bytes r.rc (toList r.buf r.readBytes)) <$> xxfsRead env path buf off len
  | .chmod path mode => Reply.code <$> xxfsChmod env path mode
  | .chown path uid gid => Reply.code <$> xxfsChown env path uid gid
  | .utime path atime mtime => Reply.code <$> xxfsUtime env path atime mtime
  | .rename old new => Reply.code <$> xxfsRename env old new
  | .symlink target linkpath => Reply.code <$> xxfsSymlink env target linkpath
  | .readlink path buf len =>
    (fun r ↦ Reply.target (r.map fun x ↦ toList x.1 x.2.toNat)) <$> xxfsReadlink env path buf len
  | .sync => Reply.code <$> xxfsSync env
  | .remount flags => do
    if ← Volume.remount env flags then return .code .ok else FsM.diverge

end code

section node

/-- What is stored under a name, with the bytes as the image has them. -/
def nodeOf (img : Image) (n : Inode) : Node :=
  if n.iFileType = ftDir then .dir
  else .leaf n.iFileType n.iMode n.iUid n.iGid (toList (content img n) n.iSize.toNat)

def treeAt (m : Inodes) (fs : Fs) : NameTree := fun p ↦ (seen m fs p).map (nodeOf fs.img)

def treeOf (fs : Fs) : NameTree := treeAt (indexed fs) fs

/-- A file with zeros behind its end; a link has no blocks. -/
structure Tidy (img : Image) (n : Inode) : Prop where
  padded : Padded img n
  link : n.iFileType = ftLnk → n.iBlocks = 0

def AllTidy (m : Inodes) (fs : Fs) : Prop :=
  ∀ p n, seen m fs p = some n → n.iFileType ≠ ftDir → Tidy fs.img n

variable {img img' : Image} {n n' : Inode}

theorem nodeOf_dir (ht : n.iFileType = ftDir) : nodeOf img n = .dir := if_pos ht

theorem nodeOf_leaf (ht : n.iFileType ≠ ftDir) : nodeOf img n =
    .leaf n.iFileType n.iMode n.iUid n.iGid (toList (content img n) n.iSize.toNat) := if_neg ht

theorem toList_congr {f g : ℕ → UInt8} {k : ℕ} (h : ∀ i < k, f i = g i) : toList f k = toList g k :=
  List.map_congr_left fun i hi ↦ h i (List.mem_range.mp hi)

theorem toList_getD (f : ℕ → UInt8) {k i : ℕ} (hi : i < k) : (toList f k).getD i 0 = f i := by
  simp [toList, hi]

@[simp] theorem facts_nodeOf : (nodeOf img n).facts = factsOf n := by
  by_cases ht : n.iFileType = ftDir
  · rw [nodeOf_dir ht, factsOf, if_pos ht]
    rfl
  · rw [nodeOf_leaf ht, factsOf, if_neg ht, Node.facts, toList_length]

theorem Tidy.body (h : Tidy img n) (hb : SameBody n n')
    (hdata : ∀ i ∈ extent n, img'.data i = img.data i) : Tidy img' n' := by
  constructor
  · intro i hi hr
    rw [hb.size] at hi
    rw [room, hb.blocks] at hr
    rw [hb.bytes]
    exact h.padded.congr hdata i hi hr
  · intro ht
    rw [hb.blocks]
    exact h.link (hb.type.symm.trans ht)

theorem nodeOf_body (hb : SameBody n n') (ht : n.iFileType ≠ ftDir)
    (hdata : ∀ i < n.iSize.toNat, content img' n i = content img n i) : nodeOf img' n' =
      .leaf n.iFileType n'.iMode n'.iUid n'.iGid (toList (content img n) n.iSize.toNat) := by
  rw [nodeOf_leaf (hb.type ▸ ht), hb.type, hb.size, hb.bytes, toList_congr hdata]

end node

section frame

variable {K : Path → Prop} {m m' : Inodes} {fs fs' : Fs} {P D W : Set Path} {p : Path} {x : Option Node}

theorem treeAt_of {n : Inode} (hn : seen m fs p = some n) : treeAt m fs p = some (nodeOf fs.img n) := by
  rw [treeAt, hn]
  rfl

theorem treeAt_none (hn : seen m fs p = none) : treeAt m fs p = none := by
  rw [treeAt, hn]
  rfl

theorem kind_dir_iff (h : Sound K m ∅ fs) : kind m p = some ftDir ↔ treeAt m fs p = some .dir := by
  have hcur : kind (seen m fs) p = kind m p := cur_kind (h.coherent p)
  rw [← hcur, kind, treeAt, Option.map_eq_some_iff, Option.map_eq_some_iff]
  refine exists_congr fun n ↦ and_congr_right fun _ ↦ ⟨nodeOf_dir, fun hn ↦ ?_⟩
  by_contra ht
  rw [nodeOf_leaf ht] at hn
  cases hn

theorem nodeOf_img {n : Inode} {img : Image} (h : Sound K m ∅ fs) (hn : seen m fs p = some n)
    (hdata : n.iFileType ≠ ftDir → ∀ i ∈ extent n, img.data i = fs.img.data i) :
    nodeOf img n = nodeOf fs.img n := by
  by_cases ht : n.iFileType = ftDir
  · rw [nodeOf_dir ht, nodeOf_dir ht]
  · rw [nodeOf_body (.refl n) ht fun i hi ↦ h.content_eq hn (hdata ht) hi, nodeOf_leaf ht]

theorem treeAt_frame (hE : Effect P D W m m' fs fs') (h : Sound K m ∅ fs) (h' : Sound K m' ∅ fs')
    (hp : p ∉ P) : treeAt m' fs' p = treeAt m fs p := by
  rcases hE.inodes p hp with ⟨-, hs⟩ | ⟨-, n, n', hn, ht, ht', hn'⟩
  · cases hn : seen m fs p with
    | none => rw [treeAt_none hn, treeAt_none (hs.trans hn)]
    | some n =>
      rw [treeAt_of hn, treeAt_of (hs.trans hn),
        nodeOf_img h hn fun ht ↦ hE.data p n hp hn fun hd ↦ (ht hd).elim]
  · rw [treeAt_of (cur_dir (h.coherent p) hn ht), treeAt_of (cur_dir (h'.coherent p) hn' ht'),
      nodeOf_dir ht, nodeOf_dir ht']

theorem tidy_frame (hE : Effect P D W m m' fs fs') (h' : Sound K m' ∅ fs') (hA : AllTidy m fs)
    (hp : p ∉ P) {n : Inode} (hn : seen m' fs' p = some n) (ht : n.iFileType ≠ ftDir) :
    Tidy fs'.img n := by
  rcases hE.inodes p hp with ⟨-, hs⟩ | ⟨-, y, y', -, -, hty', hy'⟩
  · have hn₀ : seen m fs p = some n := hs.symm.trans hn
    exact (hA p n hn₀ ht).body (.refl n) (hE.data p n hp hn₀ fun hd ↦ (ht hd).elim)
  · obtain rfl := Option.some.inj (hn.symm.trans (cur_dir (h'.coherent p) hy' hty'))
    exact (ht hty').elim

theorem AllTidy.step (hA : AllTidy m fs) (hE : Effect P D W m m' fs fs') (h' : Sound K m' ∅ fs')
    (hP : ∀ p ∈ P, ∀ n, seen m' fs' p = some n → n.iFileType ≠ ftDir → Tidy fs'.img n) :
    AllTidy m' fs' := by
  intro p n hn ht
  by_cases hp : p ∈ P
  · exact hP p hp n hn ht
  · exact tidy_frame hE h' hA hp hn ht

theorem treeAt_update (hE : Effect {p} D W m m' fs fs') (h : Sound K m ∅ fs) (h' : Sound K m' ∅ fs')
    (hx : treeAt m' fs' p = x) : treeAt m' fs' = update (treeAt m fs) p x := by
  funext q
  by_cases hq : q = p
  · rw [hq, update_self, hx]
  · rw [update_of_ne hq]
    exact treeAt_frame hE h h' hq

end frame

/-- A step of the code whose reply and whose tree are those of `x`. -/
def Steps (K : Path → Prop) (x : Reply × NameTree) (r : Reply) (fs' : Fs) : Prop :=
  ∃ m', Sound K m' ∅ fs' ∧ AllTidy m' fs' ∧ x = (r, treeAt m' fs')

section steps

variable {env : Env} (he : Healthy env) {K : Path → Prop} (hK : Names K) {m m' : Inodes} {fs fs' : Fs}
  (h : Sound K m ∅ fs) (hA : AllTidy m fs) {path p : Path} {n n' : Inode} {rc : Rc} {r : Reply}

theorem nodeOf_seal (img : Image) (n : Inode) : nodeOf img (inodeSetChecksumEcc n) = nodeOf img n := by
  obtain ⟨c, e, -, heq⟩ := inodeSetChecksumEcc_eq n
  rw [heq]
  rfl

include h hA

theorem looked_steps (hL : Looked K m fs fs') : Steps K (r, treeAt m fs) r fs' := by
  refine ⟨m, hL.sound, hA.step hL.effect hL.sound fun _ hq ↦ hq.elim, ?_⟩
  have heq : treeAt m fs' = treeAt m fs :=
    funext fun q ↦ treeAt_frame hL.effect h hL.sound (Set.notMem_empty q)
  rw [heq]

theorem made_steps {type : UInt8} {x : Node} (hv : cell fs.icache p = none → Vacant m fs p)
    (hn : Tidy fs'.img n) (hx : nodeOf fs'.img n = x) (hM : Made K p n type m fs rc fs') :
    Steps K (makes (treeAt m fs) p x) (.code rc) fs' := by
  rcases hM with ⟨hc, rfl, l, rfl⟩ | ⟨hc, rfl, -, m', hs, hadd⟩
  · obtain ⟨y, hy⟩ := Option.ne_none_iff_exists'.mp hc
    have hseen : seen m fs p = some y.1 := by
      rw [seen, cur, hy]
      rfl
    rw [makes, treeAt_of hseen]
    exact looked_steps h hA (h.relock l)
  · have hseen : seen m fs p = none := (cur_none (h.coherent p)).mpr (hv hc).absent
    refine ⟨m', hs, hA.step hadd.toEffect hs fun q hq y hy _ ↦ ?_, ?_⟩
    · obtain rfl : q = p := hq
      obtain rfl := Option.some.inj (hy.symm.trans hadd.fresh)
      exact hn
    · rw [makes, treeAt_none hseen,
        treeAt_update hadd.toEffect h hs ((treeAt_of hadd.fresh).trans (congrArg some hx))]

theorem removed_steps (hU : Unlinked K p m fs rc fs') :
    Steps K (.code .ok, update (treeAt m fs) p none) (.code rc) fs' := by
  obtain ⟨rfl, -, m', hs, hR⟩ := hU
  have hgone : seen m' fs' p = none := (cur_none (hs.coherent p)).mpr hR.gone
  refine ⟨m', hs, hA.step hR.toEffect hs fun q hq y hy _ ↦ ?_, ?_⟩
  · obtain rfl : q = p := hq
    rw [hgone] at hy
    cases hy
  · rw [treeAt_update hR.toEffect h hs (treeAt_none hgone)]

theorem restored_steps {x : Node} (hs : Sound K m' ∅ fs') (hR : Restored p n m m' fs fs')
    (hn : n.iFileType ≠ ftDir → Tidy fs'.img n) (hx : nodeOf fs'.img n = x) :
    Steps K (.code .ok, update (treeAt m fs) p (some x)) (.code .ok) fs' := by
  refine ⟨m', hs, hA.step hR.toEffect hs fun q hq y hy ht ↦ ?_, ?_⟩
  · obtain rfl : q = p := hq
    obtain rfl := Option.some.inj (hy.symm.trans hR.now)
    exact hn ht
  · rw [treeAt_update hR.toEffect h hs ((treeAt_of hR.now).trans (congrArg some hx))]

omit h hA in
theorem wrote_node {buf : ℕ → UInt8} {off : UInt64} {len : UInt32} (ht : n.iFileType ≠ ftDir)
    (hbound : off.toNat + len.toNat < 2 ^ 63) (hpad : Padded fs.img n)
    (hW : Wrote p n n' buf off len m fs fs') : nodeOf fs'.img n' =
      (nodeOf fs.img n).written off.toNat (toList buf len.toNat) := by
  have hbody := hW.body
  have hsize : n'.iSize.toNat = max n.iSize.toNat (off.toNat + len.toNat) := by
    rw [hbody]
    exact maxSize_toNat hbound n.iSize
  have htype : n'.iFileType = n.iFileType := by rw [hbody]
  have hmode : n'.iMode = n.iMode := by rw [hbody]
  have huid : n'.iUid = n.iUid := by rw [hbody]
  have hgid : n'.iGid = n.iGid := by rw [hbody]
  have hbytes : toList (content fs'.img n') n'.iSize.toNat = splice 0
      (toList (content fs.img n) n.iSize.toNat) off.toNat (toList buf len.toNat) := by
    apply eq_of_getD (z := 0)
    · rw [splice_length, toList_length, toList_length, toList_length, hsize]
    · intro i hi
      rw [toList_length] at hi
      rw [getD_splice, toList_length, toList_getD _ hi]
      split
      · rename_i hin
        rw [toList_getD _ (by omega), ← hW.bytes (i - off.toNat) (by omega)]
        congr 1
        omega
      · rename_i hout
        by_cases hold : i < n.iSize.toNat
        · rw [toList_getD _ hold, hW.rest i hold (by omega)]
        · rw [List.getD_eq_default _ _ (by rw [toList_length]; omega),
            hW.gap hpad i (by omega) (by omega)]
  rw [nodeOf_leaf ht, nodeOf_leaf (htype ▸ ht), hbytes, htype, hmode, huid, hgid]
  rfl

end steps

section calls

variable {env : Env} (he : Healthy env) {K : Path → Prop} (hK : Names K) {m m' : Inodes} {fs fs' : Fs}
  (h : Sound K m ∅ fs) (hA : AllTidy m fs) {path : Path} {n : Inode} {rc : Rc}

theorem treeAt_cases (m : Inodes) (fs : Fs) (p : Path) :
    seen m fs p = none ∧ treeAt m fs p = none ∨
      (∃ n, seen m fs p = some n ∧ n.iFileType = ftDir ∧ treeAt m fs p = some .dir) ∨
      ∃ n, seen m fs p = some n ∧ n.iFileType ≠ ftDir ∧ treeAt m fs p = some (nodeOf fs.img n) := by
  cases hn : seen m fs p with
  | none => exact .inl ⟨rfl, treeAt_none hn⟩
  | some n =>
    by_cases ht : n.iFileType = ftDir
    · exact .inr (.inl ⟨n, rfl, ht, (treeAt_of hn).trans (congrArg some (nodeOf_dir ht))⟩)
    · exact .inr (.inr ⟨n, rfl, ht, treeAt_of hn⟩)

theorem tidy_new (hb : n.iBlocks = 0) (hu : n.iUnion = fun _ ↦ 0) (img : Image) : Tidy img n :=
  ⟨fun i _ _ ↦ content_zero hb hu img i, fun _ ↦ hb⟩

theorem tidy_seal {img : Image} (hn : Tidy img n) : Tidy img (inodeSetChecksumEcc n) :=
  hn.body (sameBody_sealed n) fun _ _ ↦ rfl

theorem nodeOf_mode (mode : UInt16) (img : Image) (n : Inode) (now : UInt64) :
    nodeOf img { (fun n : Inode ↦ { n with iMode := mode }) n with iCtime := now } =
      (nodeOf img n).withMode mode := by
  by_cases ht : n.iFileType = ftDir
  · rw [nodeOf_dir ht]
    exact nodeOf_dir ht
  · rw [nodeOf_leaf ht]
    exact nodeOf_leaf ht

theorem nodeOf_owner (uid gid : UInt16) (img : Image) (n : Inode) (now : UInt64) :
    nodeOf img { (fun n : Inode ↦ { n with iUid := uid, iGid := gid }) n with iCtime := now } =
      (nodeOf img n).withOwner uid gid := by
  by_cases ht : n.iFileType = ftDir
  · rw [nodeOf_dir ht]
    exact nodeOf_dir ht
  · rw [nodeOf_leaf ht]
    exact nodeOf_leaf ht

theorem nodeOf_link {target : Path} (ht : target.length ≤ inlineMax) (now : UInt64) (img : Image) :
    nodeOf img (linkInode target now) = .leaf ftLnk 0 0 0 target := by
  have hP := linkInode_points ht now
  have hbytes : toList (content img (linkInode target now)) target.length = target := by
    apply toList_eq
    intro i hi
    rw [content, if_pos hP.blocks, hP.bytes i hi]
  have hnode : nodeOf img _ = _ := nodeOf_leaf hP.file
  rw [hP.size, hbytes, hP.type] at hnode
  rw [hnode]
  obtain ⟨c, e, -, heq⟩ := inodeSetChecksumEcc_eq { Inode.zero with
    iFileType := ftLnk
    iNlinks := 1
    iSize := UInt64.ofNat target.length
    iAtime := now
    iMtime := now
    iCtime := now
    iBtime := now
    iUnion := arrCopy (fun _ ↦ 0) 0 target.length (bytesAt target) }
  rw [linkInode, heq]
  rfl

theorem tidy_link {target : Path} (ht : target.length ≤ inlineMax) (now : UInt64) (img : Image) :
    Tidy img (linkInode target now) := by
  have hP := linkInode_points ht now
  refine ⟨fun i hi _ ↦ ?_, fun _ ↦ hP.blocks⟩
  rw [hP.size] at hi
  rw [content, if_pos hP.blocks, linkInode, (sameBody_sealed _).content, arr_arrCopy, if_neg (by omega),
    arr]
  simp

theorem take_drop_toList (f : ℕ → UInt8) (k a b : ℕ) :
    ((toList f k).drop a).take b = toList (fun i ↦ f (a + i)) (min b (k - a)) := by
  apply List.ext_getElem
  · simp
  · intro i hi hi'
    simp [toList]

theorem readOut_rc (img : Image) (n : Inode) (buf : ℕ → UInt8) (off : UInt64) (len : UInt32) :
    (readOut img (some n) buf off len).rc = .ok := by
  rw [readOut]
  split
  · rfl
  · rfl

theorem readOut_bytes {img : Image} {n : Inode} (buf : ℕ → UInt8) {off : UInt64} {len : UInt32} :
    ((toList (content img n) n.iSize.toNat).drop off.toNat).take len.toNat =
      toList (readOut img (some n) buf off len).buf (readOut img (some n) buf off len).readBytes := by
  rw [take_drop_toList, readOut]
  by_cases hge : off ≥ n.iSize
  · rw [if_pos hge, Nat.sub_eq_zero_of_le (UInt64.le_iff_toNat_le.mp hge), Nat.min_zero]
    rfl
  · have hle : off ≤ n.iSize := UInt64.le_of_lt (UInt64.not_le.mp hge)
    rw [if_neg hge, UInt64.toNat_sub_of_le _ _ hle]
    apply toList_congr
    intro i hi
    dsimp only
    rw [if_pos hi]

theorem linkOut_bytes {img : Image} {n : Inode} (hb : n.iBlocks = 0) (hs : n.iSize.toNat ≤ inlineMax)
    {len : UInt32} {buf : ℕ → UInt8} :
    (toList (content img n) n.iSize.toNat).take (len - 1).toNat =
      toList (linkOut n len buf) (copyLen n len).toNat := by
  have h128 : inlineMax = 128 := rfl
  have hsize : n.iSize.toUInt32.toNat = n.iSize.toNat := by
    rw [UInt64.toNat_toUInt32]
    omega
  have hcopy : (copyLen n len).toNat = min (len - 1).toNat n.iSize.toNat := by
    rw [copyLen]
    split
    · rename_i hgt
      have := UInt32.lt_iff_toNat_lt.mp hgt
      omega
    · rename_i hle
      have := UInt32.le_iff_toNat_le.mp (UInt32.not_lt.mp hle)
      omega
  have htake := take_drop_toList (content img n) n.iSize.toNat 0 (len - 1).toNat
  rw [List.drop_zero, Nat.sub_zero] at htake
  rw [htake, hcopy]
  apply toList_congr
  intro i hi
  rw [linkOut, hcopy, if_pos hi, content, if_pos hb, Nat.zero_add]

include he hK h hA

theorem create_steps {mode uid gid : UInt16} (hc : CarefulAt K m fs (.create path mode uid gid))
    (hx : xxfsCreate env path mode uid gid fs = some (rc, fs')) (hl : Live fs') :
    Steps K (makes (treeAt m fs) (pathNormalize path) (.leaf ftReg mode uid gid [])) (.code rc) fs' := by
  refine made_steps h hA hc.2 (tidy_seal (tidy_new rfl rfl _)) ?_
    (h.create he hK hc.1 hc.2 hx hl)
  rw [nodeOf_seal, nodeOf_leaf (show ftReg ≠ ftDir by decide)]
  rfl

theorem mkdir_steps {mode uid gid : UInt16} (hc : CarefulAt K m fs (.mkdir path mode uid gid))
    (hx : xxfsMkdir env path mode uid gid fs = some (rc, fs')) (hl : Live fs') :
    Steps K (makes (treeAt m fs) (pathNormalize path) .dir) (.code rc) fs' := by
  refine made_steps h hA hc.2 (tidy_seal (tidy_new rfl rfl _)) ?_
    (h.mkdir he hK hc.1 hc.2 hx hl)
  rw [nodeOf_seal, nodeOf_dir rfl]

theorem unlink_steps (hc : CarefulAt K m fs (.unlink path))
    (hx : xxfsUnlink env path fs = some (rc, fs')) (hl : Live fs') :
    Steps K (unlinks (treeAt m fs) (pathNormalize path)) (.code rc) fs' := by
  have hU := h.unlink he hK hc.1 hc.2 hx hl
  rw [unlinks]
  rcases treeAt_cases m fs (pathNormalize path) with ⟨hn, ht⟩ | ⟨n, hn, hd, ht⟩ | ⟨n, hn, hd, ht⟩
  · rw [hn] at hU
    obtain ⟨rfl, hL⟩ := hU
    rw [ht]
    exact looked_steps h hA hL
  · rw [hn] at hU
    dsimp only at hU
    rw [if_pos hd] at hU
    obtain ⟨rfl, hL⟩ := hU
    rw [ht]
    exact looked_steps h hA hL
  · rw [hn] at hU
    dsimp only at hU
    rw [if_neg hd] at hU
    rw [ht, nodeOf_leaf hd]
    exact removed_steps h hA hU

theorem rmdir_steps (hc : CarefulAt K m fs (.rmdir path))
    (hx : xxfsRmdir env path fs = some (rc, fs')) (hl : Live fs') :
    Steps K ((Call.rmdir path).spec (treeAt m fs)) (.code rc) fs' := by
  have hU := h.rmdir he hK hc.1 hc.2 hx hl
  rw [Call.spec]
  split at hU
  · rename_i hroot
    obtain ⟨rfl, rfl⟩ := hU
    rw [if_pos hroot]
    exact ⟨m, h, hA, rfl⟩
  · rename_i hroot
    rw [if_neg hroot, removes]
    rcases treeAt_cases m fs (pathNormalize path) with ⟨hn, ht⟩ | ⟨n, hn, hd, ht⟩ | ⟨n, hn, hd, ht⟩
    · rw [hn] at hU
      obtain ⟨rfl, hL⟩ := hU
      rw [ht]
      exact looked_steps h hA hL
    · rw [hn] at hU
      dsimp only at hU
      rw [if_neg (not_not.mpr hd)] at hU
      rw [ht]
      exact removed_steps h hA hU
    · rw [hn] at hU
      dsimp only at hU
      rw [if_pos hd] at hU
      obtain ⟨rfl, hL⟩ := hU
      rw [ht, nodeOf_leaf hd]
      exact looked_steps h hA hL

theorem write_steps {buf : ℕ → UInt8} {off : UInt64} {len : UInt32}
    (hc : CarefulAt K m fs (.write path buf off len))
    (hlink : kind m (pathNormalize path) ≠ some ftLnk)
    (hx : xxfsWrite env path buf off len fs = some (rc, fs')) (hl : Live fs') :
    Steps K ((Call.write path buf off len).spec (treeAt m fs)) (.code rc) fs' := by
  rw [Call.spec]
  by_cases hlen : len = 0
  · rw [xxfsWrite, if_pos hlen] at hx
    obtain ⟨rfl, rfl⟩ := Prod.mk.inj (Option.some.inj hx)
    rw [if_pos hlen]
    exact ⟨m, h, hA, rfl⟩
  have hW := h.writes he hK hc.1 hlen (hc.2 hlen) hx hl
  rw [if_neg hlen, writes]
  rcases treeAt_cases m fs (pathNormalize path) with ⟨hn, ht⟩ | ⟨n, hn, hd, ht⟩ | ⟨n, hn, hd, ht⟩
  · rw [hn] at hW
    obtain ⟨rfl, hL⟩ := hW
    rw [ht]
    exact looked_steps h hA hL
  · rw [hn] at hW
    dsimp only at hW
    rw [if_pos hd] at hW
    obtain ⟨rfl, hL⟩ := hW
    rw [ht]
    exact looked_steps h hA hL
  · rw [hn] at hW
    dsimp only at hW
    rw [if_neg hd] at hW
    obtain ⟨rfl, n', hs, hW⟩ := hW
    have htidy := hA _ n hn hd
    have hnode := wrote_node hd (hc.2 hlen n hn hd).bound htidy.padded hW
    have htype : n'.iFileType = n.iFileType := by rw [hW.body]
    have hnew : Tidy fs'.img n' := by
      refine ⟨hW.padded htidy.padded, fun hl ↦ (hlink ?_).elim⟩
      rw [← cur_kind (h.coherent _), kind]
      change (seen m fs _).map _ = _
      rw [hn, Option.map_some, ← htype, hl]
    refine ⟨m, hs, hA.step hW.toEffect hs fun q hq y hy _ ↦ ?_, ?_⟩
    · obtain rfl : q = pathNormalize path := hq
      obtain rfl := Option.some.inj (hy.symm.trans hW.now)
      exact hnew
    · rw [ht, nodeOf_leaf hd]
      dsimp only
      rw [← nodeOf_leaf hd, treeAt_update hW.toEffect h hs ((treeAt_of hW.now).trans (congrArg some hnode))]

theorem attr_steps (set : Inode → Inode) {f : Node → Node} (hset : ∀ n, SameBody n (set n))
    (hf : ∀ img n now, nodeOf img { set n with iCtime := now } = f (nodeOf img n))
    (hp : K (pathNormalize path))
    (hsame : seen m fs (pathNormalize path) = m (pathNormalize path))
    (hx : Operations.setAttr env set path fs = some (rc, fs')) (hl : Live fs') :
    Steps K (changes (treeAt m fs) (pathNormalize path) f) (.code rc) fs' := by
  have hset' := h.setAttr he hK hset hp (sameBody_of_eq hsame) hx hl
  rw [changes]
  cases hn : m (pathNormalize path) with
  | none =>
    rw [hn] at hset'
    obtain ⟨rfl, hL⟩ := hset'
    rw [treeAt_none (hsame.trans hn)]
    exact looked_steps h hA hL
  | some n =>
    rw [hn] at hset'
    obtain ⟨rfl, now, m', hs, hR⟩ := hset'
    have hseen := hsame.trans hn
    have hbody := sameBody_attr hset n now
    rw [treeAt_of hseen]
    refine restored_steps h hA hs hR (fun ht ↦ ?_) ?_
    · rw [hbody.type] at ht
      exact (hA _ n hseen ht).body hbody (hR.bytes n hseen)
    · rw [attrInode, nodeOf_seal, hf, nodeOf_img h hseen fun _ ↦ hR.bytes n hseen]

theorem rename_steps {old new : Path} (hc : CarefulAt K m fs (.rename old new))
    (hx : xxfsRename env old new fs = some (rc, fs')) (hl : Live fs') :
    Steps K (moves (treeAt m fs) (pathNormalize old) (pathNormalize new)) (.code rc) fs' := by
  obtain ⟨hold, hnew, hsame, hnot, hmove⟩ := hc
  have hR := h.rename he hK hold hnew hsame (fun hn ↦ (hmove hn).1) (fun hn ↦ (hmove hn).2) hnot hx hl
  rw [moves]
  cases hn : m (pathNormalize old) with
  | none =>
    rw [hn] at hR
    obtain ⟨rfl, hL⟩ := hR
    rw [treeAt_none (hsame.trans hn)]
    exact looked_steps h hA hL
  | some n =>
    rw [hn] at hR
    obtain ⟨rfl, now, m', hs, hR⟩ := hR
    have hseen := hsame.trans hn
    have hbody := sameBody_renamed n (pathNormalize new) now
    have hnode : nodeOf fs'.img (renamedInode n (pathNormalize new) now) = nodeOf fs.img n := by
      rw [renamedInode, nodeOf_seal]
      change nodeOf fs'.img n = _
      exact nodeOf_img h hseen fun _ ↦ hR.bytes
    rw [treeAt_of hseen]
    refine ⟨m', hs, hA.step hR.toEffect hs fun q hq y hy ht ↦ ?_, ?_⟩
    · rcases hq with rfl | rfl
      · rw [hR.unseen] at hy
        cases hy
      · obtain rfl := Option.some.inj (hy.symm.trans hR.now)
        rw [hbody.type] at ht
        exact (hA _ n hseen ht).body hbody hR.bytes
    · refine Prod.ext rfl (funext fun q ↦ ?_)
      change update (update (treeAt m fs) _ none) _ (some (nodeOf fs.img n)) q = treeAt m' fs' q
      by_cases hqn : q = pathNormalize new
      · rw [hqn, update_self, treeAt_of hR.now, hnode]
      · by_cases hqo : q = pathNormalize old
        · rw [hqo] at hqn ⊢
          rw [update_of_ne hqn, update_self, treeAt_none hR.unseen]
        · rw [update_of_ne hqn, update_of_ne hqo, treeAt_frame hR.toEffect h hs (by simp [hqo, hqn])]

theorem symlink_steps {target linkpath : Path} (hc : CarefulAt K m fs (.symlink target linkpath))
    (hx : xxfsSymlink env target linkpath fs = some (rc, fs')) (hl : Live fs') :
    Steps K ((Call.symlink target linkpath).spec (treeAt m fs)) (.code rc) fs' := by
  have hS := h.symlink he hK hc.1 hc.2 hx hl
  rw [Call.spec]
  split at hS
  · rename_i hlong
    obtain ⟨rfl, rfl⟩ := hS
    rw [if_pos hlong]
    exact ⟨m, h, hA, rfl⟩
  rename_i hlong
  rw [if_neg hlong, makes]
  cases hn : seen m fs (pathNormalize linkpath) with
  | some n =>
    rw [hn] at hS
    obtain ⟨rfl, hL⟩ := hS
    rw [treeAt_of hn]
    exact looked_steps h hA hL
  | none =>
    rw [hn] at hS
    obtain ⟨rfl, now, m', hs, hR⟩ := hS
    have hshort := Nat.le_of_not_lt hlong
    rw [treeAt_none hn]
    exact restored_steps h hA hs hR (fun _ ↦ tidy_link hshort now _) (nodeOf_link hshort now _)

theorem stat_steps {q : Except Rc Inode} (hc : CarefulAt K m fs (.stat path))
    (hx : xxfsStat env path fs = some (q, fs')) :
    Steps K ((Call.stat path).spec (treeAt m fs)) (.facts (q.map factsOf)) fs' := by
  obtain ⟨fs₁, hx₁, hL⟩ := h.stat he hK (hK.untwinned hc)
  obtain ⟨rfl, rfl⟩ := Prod.mk.inj (Option.some.inj (hx.symm.trans hx₁))
  rw [Call.spec]
  cases hn : seen m fs (pathNormalize path) with
  | none =>
    rw [treeAt_none hn]
    exact looked_steps h hA hL
  | some n =>
    rw [treeAt_of hn]
    dsimp only
    rw [facts_nodeOf]
    exact looked_steps h hA hL

theorem read_steps {buf : ℕ → UInt8} {off : UInt64} {len : UInt32} {q : ReadOut}
    (hc : CarefulAt K m fs (.read path buf off len))
    (hfile : kind m (pathNormalize path) ≠ some ftDir)
    (hx : xxfsRead env path buf off len fs = some (q, fs')) :
    Steps K ((Call.read path buf off len).spec (treeAt m fs))
      (.bytes q.rc (toList q.buf q.readBytes)) fs' := by
  rw [Call.spec]
  by_cases hlen : len = 0
  · rw [xxfsRead, if_pos hlen] at hx
    obtain ⟨rfl, rfl⟩ := Prod.mk.inj (Option.some.inj hx)
    rw [if_pos hlen]
    exact ⟨m, h, hA, rfl⟩
  obtain ⟨fs₁, hx₁, hL⟩ : ∃ fs', xxfsRead env path buf off len fs = some (_, fs') ∧ _ :=
    h.read he hK (hK.untwinned hc) hlen
  obtain ⟨rfl, rfl⟩ := Prod.mk.inj (Option.some.inj (hx.symm.trans hx₁))
  rw [if_neg hlen]
  cases hn : seen m fs (pathNormalize path) with
  | none =>
    rw [treeAt_none hn]
    exact looked_steps h hA hL
  | some n =>
    have ht : n.iFileType ≠ ftDir := by
      intro ht
      apply hfile
      rw [← cur_kind (h.coherent _)]
      exact (congrArg (Option.map Inode.iFileType) hn).trans (congrArg some ht)
    rw [treeAt_of hn]
    dsimp only
    rw [nodeOf_leaf ht, Node.bytes, readOut_bytes buf, readOut_rc]
    exact looked_steps h hA hL

theorem readlink_steps {buf : ℕ → UInt8} {len : UInt32} {q : Except Rc ((ℕ → UInt8) × UInt32)}
    (hc : CarefulAt K m fs (.readlink path buf len))
    (hx : xxfsReadlink env path buf len fs = some (q, fs')) :
    Steps K ((Call.readlink path buf len).spec (treeAt m fs))
      (.target (q.map fun x ↦ toList x.1 x.2.toNat)) fs' := by
  obtain ⟨fs₁, hstat, hL⟩ := h.stat he hK (hK.untwinned hc)
  rw [Call.spec, readsLink]
  rcases treeAt_cases m fs (pathNormalize path) with ⟨hn, ht⟩ | ⟨n, hn, hd, ht⟩ | ⟨n, hn, hd, ht⟩
  · rw [xxfsReadlink, bind_apply, hstat, hn] at hx
    obtain ⟨rfl, rfl⟩ := Prod.mk.inj (Option.some.inj hx)
    rw [ht]
    exact looked_steps h hA hL
  · rw [hn] at hstat
    rw [xxfsReadlink, bind_apply, hstat, Option.bind_some] at hx
    dsimp only [answered] at hx
    rw [if_pos (by rw [hd]; decide)] at hx
    obtain ⟨rfl, rfl⟩ := Prod.mk.inj (Option.some.inj hx)
    rw [ht]
    exact looked_steps h hA hL
  · rw [hn] at hstat
    rw [ht, nodeOf_leaf hd]
    dsimp only
    by_cases hlnk : n.iFileType = ftLnk
    · rw [xxfsReadlink_of_stat hstat hlnk] at hx
      obtain ⟨rfl, rfl⟩ := Prod.mk.inj (Option.some.inj hx)
      have hb := (hA _ n hn hd).link hlnk
      have hsize : n.iSize.toNat ≤ inlineMax := by
        rcases (h.owned.shape _ n hn).file hd with ⟨-, hs⟩ | ⟨hpos, -⟩
        · exact hs
        · rw [hb] at hpos
          cases hpos
      rw [if_pos hlnk, linkOut_bytes hb hsize]
      exact looked_steps h hA hL
    · rw [xxfsReadlink, bind_apply, hstat, Option.bind_some] at hx
      dsimp only [answered] at hx
      rw [if_pos hlnk] at hx
      obtain ⟨rfl, rfl⟩ := Prod.mk.inj (Option.some.inj hx)
      rw [if_neg hlnk]
      exact looked_steps h hA hL

theorem sync_steps (hx : xxfsSync env fs = some (rc, fs')) (hl : Live fs') :
    Steps K (.code .ok, treeAt m fs) (.code rc) fs' := by
  obtain ⟨rfl, m', hs, hS⟩ := h.sync he hK hx hl
  have hkind (p : Path) : kind (seen m' fs') p = kind (seen m fs) p := by
    have h₁ : kind (seen m' fs') p = kind m' p := cur_kind (hs.coherent p)
    have h₂ : kind (seen m fs) p = kind m p := cur_kind (h.coherent p)
    rw [h₁, h₂, hS.kinds]
  have hback (p : Path) (n' : Inode) (hn' : seen m' fs' p = some n') (ht : n'.iFileType ≠ ftDir) :
      ∃ n, seen m fs p = some n ∧ n.iFileType ≠ ftDir ∧ SameBody n n' ∧
        ∀ i ∈ extent n, fs'.img.data i = fs.img.data i := by
    have hk := hkind p
    rw [kind, kind, hn', Option.map_some] at hk
    obtain ⟨n, hn, hnt⟩ := Option.map_eq_some_iff.mp hk.symm
    have hd : n.iFileType ≠ ftDir := hnt ▸ ht
    obtain ⟨⟨x, hx, hb⟩, hdata⟩ := hS.files p n hn fun hdir ↦ (hd hdir).elim
    obtain rfl := Option.some.inj (hn'.symm.trans hx)
    exact ⟨n, hn, hd, hb, hdata⟩
  refine ⟨m', hs, fun p n' hn' ht ↦ ?_, Prod.ext rfl (funext fun p ↦ ?_)⟩
  · obtain ⟨n, hn, hd, hb, hdata⟩ := hback p n' hn' ht
    exact (hA p n hn hd).body hb hdata
  · change treeAt m fs p = treeAt m' fs' p
    by_cases hp : p ∈ dirtyInodes fs
    · obtain ⟨n, hcell⟩ := hp
      have hn : seen m fs p = some n := by
        rw [seen, cur, hcell]
        rfl
      have hk := hkind p
      rw [kind, kind, hn, Option.map_some] at hk
      obtain ⟨n', hn', htype⟩ := Option.map_eq_some_iff.mp hk
      rw [treeAt_of hn, treeAt_of hn']
      by_cases ht : n.iFileType = ftDir
      · rw [nodeOf_dir ht, nodeOf_dir (htype.trans ht)]
      · have hclean : p ∉ dirtyDirs fs := by
          rintro ⟨i, hvalid, -, hpath⟩
          obtain ⟨z, hz, hzt, -⟩ := h.coherent p n true hcell
          rw [← hpath] at hz
          exact ht (hzt.symm.trans (h.listings.typed i z hvalid hz))
        obtain ⟨t, -, hst⟩ := hS.stamped p n hcell hclean
        obtain ⟨-, hdata⟩ := hS.files p n hn fun hdir ↦ (ht hdir).elim
        obtain rfl := Option.some.inj (hn'.symm.trans hst)
        rw [writebackInode, nodeOf_seal]
        exact congrArg some (nodeOf_img h hn fun _ ↦ hdata).symm
    · exact (treeAt_frame hS.toEffect h hs hp).symm

theorem remount_steps {flags : UInt64} (hc : CarefulAt K m fs (.remount flags))
    (hx : Volume.remount env flags fs = some (true, fs')) (hl : Live fs') :
    Steps K (.code .ok, treeAt m fs) (.code .ok) fs' := by
  obtain ⟨m', hs, hR⟩ := h.remount he hK hc hx hl
  refine ⟨m', hs, hA.step hR.toEffect hs fun _ hq ↦ hq.elim, ?_⟩
  have heq : treeAt m' fs' = treeAt m fs :=
    funext fun q ↦ treeAt_frame hR.toEffect h hs (Set.notMem_empty q)
  rw [heq]

end calls

end Xxfs.TreeSpec
