import SegregatedFit.Proofs.Client.Course

/-!
Outlines in another place. When everything is moved by the same number of bytes, the sizes and the order
of the lists decide as before, so that every request takes the course that it took, moved by as much.
-/

namespace SegregatedFit

def BlockInfo.shift (k : Nat) (i : BlockInfo) : BlockInfo := { i with offset := i.offset + k }

def Lists.shift (k : Nat) (ls : Lists) : Lists := fun c => (ls c).map (· + k)

def Site.shift (k : Nat) (z : Site) : Site :=
  ⟨z.left.map (·.shift k), z.offset + k, z.size, z.right.map (·.shift k), z.lists.shift k⟩

def Outline.shift (k : Nat) (o : Outline) : Outline :=
  ⟨o.start + k, o.blocks.map (·.shift k), o.lists.shift k⟩

def Course.shift (k : Nat) : Course → Course
  | settled answer after => settled (answer.map (· + k)) (after.shift k)
  | growing delta answer after => growing delta (answer + k) (after.shift k)

-- Requests that differ in where their blocks are, and in the bytes that they write.
inductive Request.Alike (k : Nat) : Request → Request → Prop
  | allocate (size : Nat) : Alike k (.allocate size) (.allocate size)
  | free (block : Option Block) : Alike k (.free block) (.free (block.map (· + k)))
  | reallocate (block : Option Block) (size : Nat) :
      Alike k (.reallocate block size) (.reallocate (block.map (· + k)) size)
  | write (b : Block) {content content' : ByteArray} (hsize : content'.size = content.size) :
      Alike k (.write b content) (.write (b + k) content')

variable {k b size need : Nat} {ls : Lists} {z : Site} {o : Outline}

namespace BlockInfo

variable {i : BlockInfo}

@[simp] theorem offset_shift : (i.shift k).offset = i.offset + k := rfl

@[simp] theorem size_shift : (i.shift k).size = i.size := rfl

@[simp] theorem allocated_shift : (i.shift k).allocated = i.allocated := rfl

end BlockInfo

namespace Lists

theorem shift_insert : (ls.insert b size).shift k = (ls.shift k).insert (b + k) size := by
  funext c
  unfold shift insert
  split <;> rfl

theorem shift_remove : (ls.remove b size).shift k = (ls.shift k).remove (b + k) size := by
  funext c
  unfold shift remove
  split
  · exact List.map_erase (add_left_injective k) _
  · rfl

theorem shift_place : (ls.place b size need).shift k = (ls.shift k).place (b + k) size need := by
  unfold place
  split
  · rw [shift_insert, shift_remove, Nat.add_right_comm]
  · exact shift_remove

end Lists

theorem placed_shift : placed (b + k) size need = (placed b size need).map (·.shift k) := by
  unfold placed
  split
  · simp [BlockInfo.shift, Nat.add_right_comm]
  · rfl

theorem mergeable_map (size : Nat) (side : List BlockInfo) : mergeable size (side.map (·.shift k)) =
    (mergeable size side).map fun (n, rest) => (n.shift k, rest.map (·.shift k)) := by
  cases side with
  | nil => rfl
  | cons n rest =>
      simp only [List.map_cons, mergeable, BlockInfo.shift]
      split <;> rfl

namespace Site

theorem shift_mergeNext : (z.shift k).mergeNext = z.mergeNext.shift k := by
  unfold mergeNext
  simp only [shift, mergeable_map]
  cases mergeable z.size z.right with
  | none => rfl
  | some found => simp [BlockInfo.shift, Lists.shift_remove]

theorem shift_mergePrev : (z.shift k).mergePrev = z.mergePrev.shift k := by
  unfold mergePrev
  simp only [shift, mergeable_map]
  cases mergeable z.size z.left with
  | none => rfl
  | some found => simp [BlockInfo.shift, Lists.shift_remove]

theorem shift_merge : (z.shift k).merge = z.merge.shift k := by
  rw [merge, shift_mergeNext, shift_mergePrev, merge]

theorem shift_blocks (allocated : Bool) :
    (z.shift k).blocks allocated = (z.blocks allocated).map (·.shift k) := by
  simp [blocks, shift, BlockInfo.shift]

theorem shift_filedLists : (z.shift k).filedLists = z.filedLists.shift k := Lists.shift_insert.symm

end Site

namespace Outline

theorem shift_settle : (o.settle z).shift k = (o.shift k).settle (z.shift k) := by
  simp only [settle, shift, Site.shift_merge, Site.shift_blocks, Site.shift_filedLists]

theorem shift_stop : (o.shift k).stop = o.stop + k := by
  have hsizes : (o.blocks.map (·.shift k)).map (·.size) = o.blocks.map (·.size) := by
    rw [List.map_map]
    rfl
  simp only [stop, shift, hsizes]
  omega

theorem shift_before : (o.shift k).before (b + k) = (o.before b).map (·.shift k) := by
  simp [before, shift, List.filter_map, BlockInfo.shift, Function.comp_def]

theorem shift_behind : (o.shift k).behind (b + k) = (o.behind b).map (·.shift k) := by
  simp [behind, shift, List.filter_map, BlockInfo.shift, Function.comp_def]

theorem shift_sizeAt : (o.shift k).sizeAt (b + k) = o.sizeAt b := by
  simp only [sizeAt, shift, List.find?_map, Function.comp_def, BlockInfo.shift, Nat.add_right_cancel_iff]
  cases o.blocks.find? (·.offset = b) <;> rfl

theorem shift_tail (delta : Nat) : (o.shift k).tail delta = (o.tail delta).shift k := by
  simp only [tail, Site.tail, Site.shift, shift_stop, List.map_reverse, List.map_nil]
  rfl

-- The first of the smallest, also when all candidates are moved.
theorem argmin_shift {sizeAt sizeAt' : Nat → Nat} (hsize : ∀ b, sizeAt' (b + k) = sizeAt b)
    (bs : List Nat) : (bs.map (· + k)).argmin sizeAt' = (bs.argmin sizeAt).map (· + k) := by
  induction bs using List.reverseRecOn with
  | nil => rfl
  | append_singleton bs b ih =>
      rw [List.map_append, List.map_singleton, List.argmin_concat, List.argmin_concat, ih]
      cases bs.argmin sizeAt with
      | none => rfl
      | some best =>
          simp only [Option.map_some, hsize]
          split <;> rfl

theorem shift_fit (need : Nat) : (o.shift k).fit need = (o.fit need).map (· + k) := by
  have hsize : ∀ b, (o.shift k).sizeAt (b + k) = o.sizeAt b := fun _ => shift_sizeAt
  unfold fit
  rw [List.map_findSome?]
  generalize (o.shift k).sizeAt = sizeAt' at hsize ⊢
  congr 1
  funext c
  have hcandidates : ((o.shift k).lists c).filter (need ≤ sizeAt' ·) =
      ((o.lists c).filter (need ≤ o.sizeAt ·)).map (· + k) := by
    simp only [shift, Lists.shift, List.filter_map, Function.comp_def, hsize]
  rw [hcandidates]
  exact argmin_shift hsize _

theorem shift_place (b need : Nat) : (o.place b need).shift k = (o.shift k).place (b + k) need := by
  simp only [place, shift_sizeAt, shift_before, shift_behind, placed_shift]
  simp only [shift, List.map_append, Lists.shift_place]

theorem shift_release (b : Nat) : (o.release b).shift k = (o.shift k).release (b + k) := by
  simp only [release, shift_settle, shift_sizeAt, shift_before, shift_behind, Site.shift,
    List.map_reverse]
  rfl

theorem shift_absorb (b gain : Nat) (rest : List BlockInfo) :
    (o.absorb b gain rest).shift k = (o.shift k).absorb (b + k) gain (rest.map (·.shift k)) := by
  simp only [absorb, shift_sizeAt, shift_before]
  simp only [shift, List.map_append, List.map_cons, Lists.shift_remove, BlockInfo.shift,
    Nat.add_right_comm]

theorem shift_stretch (b need : Nat) :
    (o.stretch b need).shift k = (o.shift k).stretch (b + k) need := by
  simp only [stretch, shift_before]
  simp only [shift, List.map_append, List.map_cons, List.map_nil, BlockInfo.shift]

theorem shift_allocate (chunk size : Nat) :
    (o.shift k).allocate chunk size = (o.allocate chunk size).shift k := by
  unfold allocate
  split
  · rfl
  cases blockSizeFor size with
  | none => rfl
  | some need =>
      dsimp only
      rw [shift_fit]
      cases o.fit need with
      | none => simp only [Option.map_none, Course.shift, shift_place, shift_settle, shift_tail,
          Site.shift_merge]; rfl
      | some b => simp [Course.shift, shift_place]

theorem shift_releasing (course : Course) (b : Nat) :
    (course.releasing b).shift k = (course.shift k).releasing (b + k) := by
  cases course with
  | settled answer after =>
      cases answer with
      | none => rfl
      | some moved => simp [Course.shift, Course.releasing, shift_release]
  | growing delta moved after => simp [Course.shift, Course.releasing, shift_release]

theorem shift_resize (chunk b request need : Nat) :
    (o.shift k).resize chunk (b + k) request need = (o.resize chunk b request need).shift k := by
  unfold resize
  rw [shift_sizeAt, shift_behind]
  dsimp only
  split
  · rfl
  cases o.behind b with
  | nil => simp [Course.shift, shift_stretch]
  | cons j rest =>
      have htest : ((j.shift k).allocated = false ∧ need ≤ o.sizeAt b + (j.shift k).size ∧
          o.sizeAt b + (j.shift k).size ≤ maxBlockSize) ↔
          (j.allocated = false ∧ need ≤ o.sizeAt b + j.size ∧ o.sizeAt b + j.size ≤ maxBlockSize) := Iff.rfl
      simp only [List.map_cons]
      by_cases habsorb : j.allocated = false ∧ need ≤ o.sizeAt b + j.size ∧
          o.sizeAt b + j.size ≤ maxBlockSize
      · rw [if_pos (htest.mpr habsorb), if_pos habsorb]
        simp [Course.shift, shift_absorb]
      · rw [if_neg (mt htest.mp habsorb), if_neg habsorb, shift_allocate, shift_releasing]

-- Requests that are alike take the same course.
theorem shift_course (chunk : Nat) {r r' : Request} (halike : r.Alike k r') :
    (o.shift k).course chunk r' = (o.course chunk r).shift k := by
  cases halike with
  | allocate size => exact shift_allocate chunk size
  | free block =>
      cases block with
      | none => rfl
      | some b => simp [course, Course.shift, shift_release]
  | reallocate block size =>
      cases block with
      | none => exact shift_allocate chunk size
      | some b =>
          simp only [course, Option.map_some]
          split
          · simp [Course.shift, shift_release]
          cases blockSizeFor size with
          | none => rfl
          | some need => exact shift_resize chunk b size need
  | write b hsize => rfl

end Outline

end SegregatedFit
