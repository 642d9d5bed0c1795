import Mathlib
import Xxfs.BlockRuns
import Xxfs.ListingRuns
import Xxfs.MountRuns

namespace Xxfs.Soundness

open Function
open Xxfs.DiskFormat Xxfs.Machine Xxfs.Allocator Xxfs.PageCache Xxfs.PagedIndex Xxfs.PageStore
open Xxfs.InodeCache Xxfs.DirCache Xxfs.Volume Xxfs.Operations Xxfs.Hash Xxfs.PathName Xxfs.IndexRep
open Xxfs.CacheMap Xxfs.IndexState Xxfs.OperationFrames Xxfs.Checksum Xxfs.CacheKeys Xxfs.Frames
open Xxfs.FreshVolume Xxfs.FreshIndex Xxfs.NamespaceRuns Xxfs.Runs
open Xxfs.Lib Xxfs.Lib.Computation Xxfs.Lib.Computation.Comp

/-- The pages of the index: those of the directory, and those that a page leads on to. -/
inductive IsPage (fs : Fs) : UInt64 → Prop
  | first {off : UInt64} : off ∈ fs.pdir.pageOff → IsPage fs off
  | next {off : UInt64} : IsPage fs off → (pageAt fs off).overflowNext ≠ 0 →
    IsPage fs (pageAt fs off).overflowNext

/-- Whatever owns bytes of the image: the superblock, the stored page directory, a page of the
index, the record that a slot of such a page points to, and the file or directory at a path. -/
inductive Holder
  | super | table
  | page (off : UInt64)
  | record (off : UInt64) (i : ℕ)
  | path (p : Path)

def held (fs : Fs) : Holder → Set ℕ
  | .super => Set.Iio 4096
  | .table => { x | InBlock fs.sb.sPdirOff x }
  | .page off => { x | IsPage fs off ∧ InBlock off x }
  | .record off i => { x | IsPage fs off ∧ i < (pageAt fs off).count.toNat ∧
      ((pageAt fs off).slot i).flags &&& slotFInline = 0 ∧ InBlock ((pageAt fs off).slot i).fileOff x }
  | .path p => extentOf (seen (indexed fs) fs p)

/-- The operations that may change the children of the directory at `p`, or take it away. -/
def Lists (p : Path) : Op → Prop
  | .create path _ _ _ | .mkdir path _ _ _ | .unlink path =>
    getParentPath (pathNormalize path) = p
  | .rmdir path => pathNormalize path = p ∨ getParentPath (pathNormalize path) = p
  | .rename path _ => pathNormalize path = p
  | _ => False

section pages

variable {fs : Fs} {L : Chain}

theorem links_next_mem (h : Links fs L) {p : UInt64 × List Ent} (hp : p ∈ L)
    (hn : (pageAt fs p.1).overflowNext ≠ 0) : (pageAt fs p.1).overflowNext ∈ offs L := by
  induction L with
  | nil => cases hp
  | cons q rest ih =>
    obtain ⟨hq, hrest⟩ := h
    rcases List.mem_cons.mp hp with rfl | hp
    · rw [hq] at hn ⊢
      cases rest with
      | nil => exact (hn rfl).elim
      | cons r rest => exact List.mem_cons_of_mem _ List.mem_cons_self
    · exact List.mem_cons_of_mem _ (ih hrest hp)

variable (hR : Represents fs L)
include hR

theorem page_mem {off : UInt64} (h : IsPage fs off) : off ∈ offs L := by
  induction h with
  | first ho =>
    rw [hR.dir] at ho
    obtain rfl := List.mem_singleton.mp ho
    cases L with
    | nil => exact (hR.ne rfl).elim
    | cons p rest => exact List.mem_cons_self
  | next _ hn ih =>
    obtain ⟨p, hp, rfl⟩ := List.mem_map.mp ih
    exact links_next_mem hR.links hp hn

theorem slot_entry {p : UInt64 × List Ent} (hp : p ∈ L) {i : ℕ}
    (hi : i < (pageAt fs p.1).count.toNat)
    (hflag : ((pageAt fs p.1).slot i).flags &&& slotFInline = 0) :
    ∃ e, p.2[i]? = some e ∧ e.loc = some ((pageAt fs p.1).slot i).fileOff := by
  have hrep := hR.reps p hp
  rw [hrep.count] at hi
  have he : p.2[i]? = some p.2[i] := List.getElem?_eq_getElem hi
  refine ⟨p.2[i], he, ?_⟩
  have hbody := (hrep.slots i _ he).body
  rw [Body] at hbody
  cases hloc : (p.2[i]).loc with
  | none =>
    rw [hloc] at hbody
    exact (hbody.1 hflag).elim
  | some off =>
    rw [hloc] at hbody
    rw [hbody.2.1]

theorem slot_record_inj {p q : UInt64 × List Ent} (hp : p ∈ L) (hq : q ∈ L) {i j : ℕ} {e e' : Ent}
    {off : UInt64} (he : p.2[i]? = some e) (he' : q.2[j]? = some e') (hloc : e.loc = some off)
    (hloc' : e'.loc = some off) : p.1 = q.1 ∧ i = j := by
  have hnd : (recs L).Nodup := (List.nodup_append.mp hR.nodup).2.1
  rw [recs, List.nodup_flatMap] at hnd
  obtain ⟨hown, hpair⟩ := hnd
  have hmem {r : UInt64 × List Ent} {k : ℕ} {x : Ent} (hx : r.2[k]? = some x)
      (hl : x.loc = some off) : off ∈ locs r.2 := mem_locs (List.mem_of_getElem? hx) hl
  obtain rfl : p = q := by
    by_contra hne
    have : Std.Symm (List.Disjoint on fun r : UInt64 × List Ent ↦ locs r.2) := ⟨fun _ _ hd ↦ hd.symm⟩
    exact hpair.forall hp hq hne (hmem he hloc) (hmem he' hloc')
  refine ⟨rfl, ?_⟩
  have hlocs := hown p hp
  rw [locs, List.Nodup, List.pairwise_filterMap, List.pairwise_iff_getElem] at hlocs
  obtain ⟨hi, rfl⟩ := List.getElem?_eq_some_iff.mp he
  obtain ⟨hj, rfl⟩ := List.getElem?_eq_some_iff.mp he'
  by_contra hne
  rcases Nat.lt_or_gt_of_ne hne with hlt | hlt
  · exact hlocs i j hi hj hlt off hloc off hloc' rfl
  · exact hlocs j i hj hi hlt off hloc' off hloc rfl

theorem block_inj {b b' : UInt64} (hb : b ∈ blocks L) (hb' : b' ∈ blocks L) {x : ℕ}
    (hx : InBlock b x) (hx' : InBlock b' x) : b = b' := by
  have h := (hR.within b hb).1
  have h' := (hR.within b' hb').1
  obtain ⟨hlo, hhi⟩ := hx
  obtain ⟨hlo', hhi'⟩ := hx'
  exact UInt64.toNat_inj.mp (by omega)

end pages

section apart

def Holder.owner : Holder → Option Owner
  | .super => some .super
  | .table => some .table
  | .path p => some (.path p)
  | .page _ | .record _ _ => none

theorem Holder.owner_inj {a b : Holder} {o : Owner} (ha : a.owner = some o) (hb : b.owner = some o) :
    a = b := by
  cases a <;> cases b <;> cases ha <;> cases hb <;> rfl

variable {K : Path → Prop} (hK : Names K) {m : Inodes} {fs : Fs} (h : Sound K m ∅ fs) {L : Chain}
  {a b : Holder} {x : ℕ}

theorem held_page (hR : Represents fs L) {off : UInt64} (hx : x ∈ held fs (.page off)) :
    off ∈ offs L ∧ InBlock off x :=
  ⟨page_mem hR hx.1, hx.2⟩

theorem held_record (hR : Represents fs L) {off : UInt64} {i : ℕ}
    (hx : x ∈ held fs (.record off i)) : ∃ p ∈ L, p.1 = off ∧ ∃ e r, p.2[i]? = some e ∧
      e.loc = some r ∧ r ∈ recs L ∧ InBlock r x := by
  obtain ⟨hpage, hi, hflag, hin⟩ := hx
  obtain ⟨p, hp, rfl⟩ := List.mem_map.mp (page_mem hR hpage)
  obtain ⟨e, he, hloc⟩ := slot_entry hR hp hi hflag
  refine ⟨p, hp, rfl, e, _, he, hloc, ?_, hin⟩
  exact List.mem_flatMap.mpr ⟨p, hp, mem_locs (List.mem_of_getElem? he) hloc⟩

theorem held_block (hR : Represents fs L) (ha : a.owner = none) (hx : x ∈ held fs a) :
    ∃ b ∈ blocks L, InBlock b x := by
  cases a with
  | page off =>
    obtain ⟨hoff, hin⟩ := held_page hR hx
    exact ⟨off, List.mem_append_left _ hoff, hin⟩
  | record off i =>
    obtain ⟨p, -, -, e, r, -, -, hr, hin⟩ := held_record hR hx
    exact ⟨r, List.mem_append_right _ hr, hin⟩
  | super => cases ha
  | table => cases ha
  | path p => cases ha

include h

theorem Sound.held_share (hK : Names K) {o : Owner} (ha : a.owner = some o) :
    held fs a = share (seen m fs) fs.sb.sPdirOff ∅ o := by
  cases a with
  | super =>
    cases ha
    rfl
  | table =>
    cases ha
    rfl
  | path p =>
    cases ha
    rw [held, h.indexed_eq hK]
    rfl
  | page off => cases ha
  | record off i => cases ha

omit h in
theorem held_index_inj (hR : Represents fs L) (ha : a.owner = none) (hb : b.owner = none)
    (hx : x ∈ held fs a) (hx' : x ∈ held fs b) : a = b := by
  have hpage {off off' : UInt64} {i : ℕ} (hx : x ∈ held fs (.page off))
      (hx' : x ∈ held fs (.record off' i)) : False := by
    obtain ⟨hoff, hin⟩ := held_page hR hx
    obtain ⟨p, -, -, e, r, -, -, hr, hin'⟩ := held_record hR hx'
    obtain rfl := block_inj hR (List.mem_append_left _ hoff) (List.mem_append_right _ hr) hin hin'
    exact (List.nodup_append.mp hR.nodup).2.2 off hoff off hr rfl
  cases a with
  | page off =>
    cases b with
    | page off' =>
      obtain ⟨hoff, hin⟩ := held_page hR hx
      obtain ⟨hoff', hin'⟩ := held_page hR hx'
      rw [block_inj hR (List.mem_append_left _ hoff) (List.mem_append_left _ hoff') hin hin']
    | record off' i => exact (hpage hx hx').elim
    | super => cases hb
    | table => cases hb
    | path p => cases hb
  | record off i =>
    cases b with
    | page off' => exact (hpage hx' hx).elim
    | record off' j =>
      obtain ⟨p, hp, rfl, e, r, he, hloc, hr, hin⟩ := held_record hR hx
      obtain ⟨q, hq, rfl, e', r', he', hloc', hr', hin'⟩ := held_record hR hx'
      obtain rfl := block_inj hR (List.mem_append_right _ hr) (List.mem_append_right _ hr') hin hin'
      obtain ⟨hpq, hij⟩ := slot_record_inj hR hp hq he he' hloc hloc'
      rw [hpq, hij]
    | super => cases hb
    | table => cases hb
    | path p => cases hb
  | super => cases ha
  | table => cases ha
  | path p => cases ha

include hK

theorem Sound.held_apart (hab : a ≠ b) : Disjoint (held fs a) (held fs b) := by
  obtain ⟨L, hB⟩ := h.backed
  -- the index keeps off what the others own
  have hmixed {c d : Holder} {o : Owner} (hc : c.owner = none) (hd : d.owner = some o) (x : ℕ)
      (hx : x ∈ held fs c) (hx' : x ∈ held fs d) : False := by
    obtain ⟨b, hb, hin⟩ := held_block hB.rep hc hx
    rw [h.held_share hK hd] at hx'
    exact hB.off b hb x hin (Shares.subset_owned _ o hx')
  refine Set.disjoint_left.mpr fun x hx hx' ↦ ?_
  cases ha : a.owner with
  | none =>
    cases hb : b.owner with
    | none => exact hab (held_index_inj hB.rep ha hb hx hx')
    | some o => exact hmixed ha hb x hx hx'
  | some o =>
    cases hb : b.owner with
    | none => exact hmixed hb ha x hx' hx
    | some o' =>
      have hne : o ≠ o' := fun heq ↦ hab (Holder.owner_inj ha (heq ▸ hb))
      rw [h.held_share hK ha] at hx
      rw [h.held_share hK hb] at hx'
      exact h.owned.apart.not_mem hne hx hx'

end apart

section others

variable {env : Env} (he : Healthy env) {K : Path → Prop} {m m' : Inodes} {fs fs' : Fs}
  (h : Sound K m ∅ fs) {op : Op} {p : Path}
include h

theorem Sound.sameListing (ho : Outcome K m m' fs fs' op) (hop : ¬Lists p op)
    (hp : kind m p = some ftDir) : kind m' p = some ftDir ∧ listing m' fs' p = listing m fs p := by
  obtain ⟨x, hx, ht⟩ := kind_some hp
  have hE {P D W : Set Path} (hE : Effect P D W m m' fs fs') (hP : p ∉ P) (hD : p ∉ D) :
      kind m' p = some ftDir ∧ listing m' fs' p = listing m fs p :=
    ⟨(hE.kind hP).trans hp, hE.listing p x hP hD hx ht⟩
  have hfile {q : Path} {n : Inode} (hn : seen m fs q = some n) (hf : n.iFileType ≠ ftDir) : p ≠ q := by
    rintro rfl
    rw [seen, cur_dir (h.coherent p) hx ht] at hn
    exact hf (Option.some.inj hn ▸ ht)
  have habsent {q : Path} (hq : m q = none) : p ≠ q := by
    rintro rfl
    rw [hx] at hq
    cases hq
  cases ho with
  | looked hsame hL =>
    subst hsame
    exact hE hL.effect (Set.notMem_empty p) (Set.notMem_empty p)
  | added hmakes _ hv _ hA _ =>
    refine hE hA.toEffect (habsent hv.absent) fun hpar ↦ hop ?_
    obtain rfl := Set.mem_singleton_iff.mp hpar
    cases op with
    | create path mode uid gid => exact congrArg getParentPath hmakes.1
    | mkdir path mode uid gid => exact congrArg getParentPath hmakes.1
    | _ => exact hmakes.elim
  | removed hrem _ hn _ hR _ =>
    refine hE hR.toEffect (fun hself ↦ ?_) fun hpar ↦ hop ?_
    · obtain rfl := Set.mem_singleton_iff.mp hself
      obtain rfl := Option.some.inj (hx.symm.trans hn)
      cases op with
      | unlink path => exact hrem.2 ht
      | rmdir path => exact hop (.inl hrem.1)
      | _ => exact hrem.elim
    · obtain rfl := Set.mem_singleton_iff.mp hpar
      cases op with
      | unlink path => exact congrArg getParentPath hrem.1
      | rmdir path => exact .inr (congrArg getParentPath hrem.1)
      | _ => exact hrem.elim
  | wrote hsame hn hf hW =>
    subst hsame
    exact hE hW.toEffect (hfile hn hf) (Set.notMem_empty p)
  | poured hsame hn hf hP _ _ _ =>
    subst hsame
    exact hE hP (hfile hn hf) (Set.notMem_empty p)
  | restored hn hf hbody hR =>
    exact ⟨(NamespaceRuns.kind_restored h hn hf.type hR p).trans hp,
      ListingRuns.listing_restored h hn hbody hR hp⟩
  | linked _ _ hspot hR => exact hE hR.toEffect (habsent hspot.absent) (Set.notMem_empty p)
  | renamed _ _ _ hspot hR =>
    refine hE hR.toEffect (fun hmem ↦ ?_) (Set.notMem_empty p)
    rcases hmem with hold | hnew
    · exact hop hold.symm
    · exact habsent hspot.absent hnew
  | synced hS => exact ⟨(hS.kinds p).trans hp, hS.listings p hp⟩
  | remounted hR => exact hE hR.toEffect (Set.notMem_empty p) (Set.notMem_empty p)

include he

theorem Sound.sameReaddir (h' : Sound K m' ∅ fs') {path : Path} {n : Inode}
    (hn : seen m fs (pathNormalize path) = some n) (ht : n.iFileType = ftDir)
    (ho : Outcome K m m' fs fs' op) (hop : ¬Lists (pathNormalize path) op) :
    result (xxfsReaddir env path) fs' = result (xxfsReaddir env path) fs := by
  obtain ⟨x, hx, hxt⟩ := h.stored_some hn
  have hp : kind m (pathNormalize path) = some ftDir := by
    rw [kind, hx, Option.map_some, hxt, ht]
  obtain ⟨hp', hlist⟩ := h.sameListing ho hop hp
  obtain ⟨x', hx', -⟩ := kind_some hp'
  rw [h.result_readdir he, h'.result_readdir he,
    h.dirOut_of fun _ ↦ by rw [hx]; exact Option.some_ne_none x,
    h'.dirOut_of fun _ ↦ by rw [hx']; exact Option.some_ne_none x', hp, hp', hlist]

end others

section main

variable {env : Env} (he : Healthy env) {K : Path → Prop} (hK : Names K) {fs : Fs}
include he hK

/-- No byte of the image is held twice, and an operation on other paths changes neither what
`xxfs_read` answers for a file nor what `xxfs_readdir` answers for a directory. -/
theorem ownership (hr : CarefulRun K env fs) :
    (∀ a b, a ≠ b → Disjoint (held fs a) (held fs b)) ∧
    ∀ op fs', Careful K fs op → exec env op fs = some ((), fs') → Live fs' →
      ∀ path, Untwinned K (pathNormalize path) → ∀ n, result (xxfsStat env path) fs = some (.ok n) →
        (n.iFileType ≠ ftDir → ¬Alters (pathNormalize path) op → SameReads env path fs fs') ∧
        (n.iFileType = ftDir → ¬Lists (pathNormalize path) op →
          result (xxfsReaddir env path) fs' = result (xxfsReaddir env path) fs) := by
  have h := hr.sound he hK
  refine ⟨fun a b hab ↦ h.held_apart hK hab, fun op fs' hc hx hl path hp n hn ↦ ⟨?_, ?_⟩⟩
  · intro ht hop
    have hseen := (h.stat_ok_iff he hK hp).mp hn
    obtain ⟨m', h', n', hn', hb, hdata⟩ := h.keeps he hK hseen ht hc hop hx hl
    exact h.sameReads he hK h' hp hseen hn' hb hdata
  · intro ht hop
    have hseen := (h.stat_ok_iff he hK hp).mp hn
    obtain ⟨m', h', ho⟩ := h.step he hK hc hx hl
    exact h.sameReaddir he h' hseen ht ho hop

end main

section first

theorem ownership_file : ∃ fs₁ fs, xxfsWrite steady [slash, 97] (fun _ ↦ 1) 0 200 fs₁ = some (.ok, fs) ∧
    Disjoint (held fs (.path [slash, 97])) (held fs .table) ∧
      result (xxfsReaddir steady rootPath) fs = result (xxfsReaddir steady rootPath) fs₁ := by
  obtain ⟨m, n₁, n, fs₁, fs, hall⟩ := first_overwritten
  obtain ⟨fs', hO⟩ := hall fun _ ↦ 0
  have hmem : pathNormalize rootPath ∈ fewPaths := by decide
  obtain ⟨x, hx, ht⟩ := kind_some hO.sound₁.tree.root
  have hroot : seen m fs₁ (pathNormalize rootPath) = some x := cur_dir (hO.sound₁.coherent _) hx ht
  have hstat := (hO.sound₁.stat_ok_iff steady_healthy fewPaths_names (fewPaths_names.untwinned hmem)).mpr hroot
  have hexec : exec steady (.write [slash, 97] (fun _ ↦ 1) 0 200) fs₁ = some ((), fs) :=
    exec_discard hO.filled
  have hsame := (ownership steady_healthy fewPaths_names hO.run₁).2 _ fs hO.careful hexec hO.live
    rootPath (fewPaths_names.untwinned hmem) x hstat
  exact ⟨fs₁, fs, hO.filled, (ownership steady_healthy fewPaths_names hO.run).1 _ _ (by simp),
    hsame.2 ht fun hc ↦ hc.elim⟩

/-- Eight bytes at the start of a file with a block are its new extent. -/
theorem extent_taken_over : ¬∀ (env : Env) (fs : Fs) (a b : Holder), Healthy env →
    RunBy (fun _ _ ↦ True) env fs → a ≠ b → Disjoint (held fs a) (held fs b) := by
  intro hall
  obtain ⟨m, n₁, n, fs₁, fs, hbuf⟩ := first_overwritten
  obtain ⟨fs', hO⟩ := hbuf (LittleEndian.leByte fs.sb.sPdirOff.toNat)
  have hdis := hall steady fs' (.path [slash, 97]) .table steady_healthy
    (hO.run' trivial trivial trivial) (by simp)
  have hindexed : indexed fs' = m := by
    obtain ⟨F, L, hb⟩ := hO.basis.backed
    exact indexed_of_backed fewPaths_names hb
  have hoff := inlined_off n (LittleEndian.leByte fs.sb.sPdirOff.toNat)
  rw [LittleEndian.getU64_leByte] at hoff
  have hblocks := hO.blocks
  have hpath : fs.sb.sPdirOff.toNat ∈ held fs' (.path [slash, 97]) := by
    rw [held, hindexed, hO.seen', extentOf_some, extent, hoff]
    exact ⟨le_rfl, Nat.lt_add_of_pos_right (Nat.mul_pos hblocks (by decide))⟩
  have htable : fs.sb.sPdirOff.toNat ∈ held fs' .table := by
    rw [held, hO.sb]
    exact ⟨le_rfl, Nat.lt_add_of_pos_right (by decide)⟩
  exact Set.disjoint_left.mp hdis hpath htable

end first

end Xxfs.Soundness
