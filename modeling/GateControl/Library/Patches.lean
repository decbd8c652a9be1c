import GateControl.Library.Bytes

/-!
# Patches — overwriting parts of a buffer

Numbers in a buffer are overwritten in place, each at an offset into the whole buffer.  When the
buffer is made of parts and each number lies in one of them, this is to overwrite each part for
itself.
-/

namespace GateControl
namespace Library

/-- An offset and what is written there. -/
abbrev Patch := Nat × Bytes

def patch (buf : Bytes) (ws : List Patch) : Bytes := ws.foldl (fun b w => writeBytes b w.1 w.2) buf

/-- The same patches further back. -/
def shiftBy (pos : Nat) (ws : List Patch) : List Patch := ws.map fun w => (pos + w.1, w.2)

/-- The patches lie in a buffer of this length. -/
def Fit (ws : List Patch) (length : Nat) : Prop := ∀ w ∈ ws, w.1 + w.2.length ≤ length

/-- The patches of parts that stand one behind the other. -/
def spread (f : Bytes → List Patch) (pos : Nat) : List Bytes → List Patch
  | [] => []
  | c :: cs => shiftBy pos (f c) ++ spread f (pos + c.length) cs

theorem patch_append (buf : Bytes) (as bs : List Patch) :
    patch buf (as ++ bs) = patch (patch buf as) bs :=
  List.foldl_append

@[simp] theorem length_patch (buf : Bytes) (ws : List Patch) :
    (patch buf ws).length = buf.length := by
  induction ws generalizing buf with
  | nil =>
      rfl
  | cons w ws ih =>
      exact (ih _).trans (length_writeBytes _ _ _)

theorem writeBytes_inside (pre post : Bytes) {c bs : Bytes} {i : Nat}
    (h : i + bs.length ≤ c.length) :
    writeBytes (pre ++ c ++ post) (pre.length + i) bs = pre ++ writeBytes c i bs ++ post := by
  induction bs generalizing c i with
  | nil =>
      rfl
  | cons b bs ih =>
      rw [List.length_cons] at h
      have hset : (pre ++ c ++ post).set (pre.length + i) b = pre ++ c.set i b ++ post := by
        rw [List.append_assoc, List.set_append_right _ _ (Nat.le_add_right _ _),
          Nat.add_sub_cancel_left, List.set_append_left _ _ (by omega), List.append_assoc]
      rw [writeBytes, writeBytes, hset, Nat.add_assoc]
      exact ih (by rw [List.length_set]; omega)

/-- Patches of one part leave the others alone. -/
theorem patch_inside (pre post : Bytes) {c : Bytes} {ws : List Patch} (h : Fit ws c.length) :
    patch (pre ++ c ++ post) (shiftBy pre.length ws) = pre ++ patch c ws ++ post := by
  induction ws generalizing c with
  | nil =>
      rfl
  | cons w ws ih =>
      have hone := writeBytes_inside pre post (h w List.mem_cons_self)
      have hrest : Fit ws (writeBytes c w.1 w.2).length := by
        rw [length_writeBytes]
        exact fun w' hw' => h w' (List.mem_cons_of_mem _ hw')
      calc patch (pre ++ c ++ post) (shiftBy pre.length (w :: ws))
          = patch (writeBytes (pre ++ c ++ post) (pre.length + w.1) w.2)
              (shiftBy pre.length ws) := rfl
        _ = patch (pre ++ writeBytes c w.1 w.2 ++ post) (shiftBy pre.length ws) := by rw [hone]
        _ = pre ++ patch c (w :: ws) ++ post := ih hrest

/-- Patches of parts are patches of each part. -/
theorem patch_spread {f : Bytes → List Patch} {cs : List Bytes} (pre post : Bytes)
    (h : ∀ c ∈ cs, Fit (f c) c.length) :
    patch (pre ++ cs.flatten ++ post) (spread f pre.length cs) =
      pre ++ (cs.map fun c => patch c (f c)).flatten ++ post := by
  induction cs generalizing pre with
  | nil =>
      rfl
  | cons c cs ih =>
      have hone := patch_inside pre (cs.flatten ++ post) (h c List.mem_cons_self)
      have hrest := ih (pre ++ patch c (f c)) fun c' hc' => h c' (List.mem_cons_of_mem _ hc')
      rw [List.length_append, length_patch] at hrest
      rw [spread, patch_append, List.flatten_cons, List.map_cons, List.flatten_cons]
      simp only [List.append_assoc] at hone hrest ⊢
      rw [hone, hrest]

theorem fit_spread {f : Bytes → List Patch} {cs : List Bytes} (h : ∀ c ∈ cs, Fit (f c) c.length)
    (pos : Nat) : Fit (spread f pos cs) (pos + cs.flatten.length) := by
  induction cs generalizing pos with
  | nil =>
      exact fun w hw => absurd hw List.not_mem_nil
  | cons c cs ih =>
      have hrest := ih (fun c' hc' => h c' (List.mem_cons_of_mem _ hc')) (pos + c.length)
      intro w hw
      rw [List.flatten_cons, List.length_append]
      rcases List.mem_append.1 hw with hself | hw
      · obtain ⟨w', hw', rfl⟩ := List.mem_map.1 hself
        have hfit := h c List.mem_cons_self w' hw'
        dsimp only
        omega
      · have hfit := hrest w hw
        omega

end Library
end GateControl
