/-
The name that `do_execve` looks for. It copies the caller's path byte by byte to an array on its stack, up to the NUL
and without it, and sets only the last byte of the array to 0. Behind a short path stands what the array held before.

- `copyPath_pathAt`: the bytes before the NUL are copied.
- `execve_path_exact`: the name is the caller's path just if the array held a 0 behind it; then the rest of the array
  does not matter.
- `stale_path_not_found`: a path that names a file, and a call that does not find it.
-/
import Uix.Cpu.ExecKernelHalf

namespace Uix.Exec

open Machine List

/-- the kernel reads the string `path` at `upath` -/
structure PathAt (k : Kern) (upath : U64) (path : List (BitVec 8)) : Prop where
  bytes : ∀ i b, path[i]? = some b → k.readByte (upath + BitVec.ofNat 64 i) = .ok b
  nul : k.readByte (upath + BitVec.ofNat 64 path.length) = .ok 0
  nonzero : 0 ∉ path

section Path

variable {k : Kern} {upath : U64} {b : BitVec 8} {path : List (BitVec 8)}

theorem PathAt.tail (h : PathAt k upath (b :: path)) : PathAt k (upath + 1) path := by
  have hnext : ∀ i, upath + 1 + BitVec.ofNat 64 i = upath + BitVec.ofNat 64 (i + 1) := fun i => by
    rw [BitVec.ofNat_add, BitVec.add_assoc, BitVec.add_comm (BitVec.ofNat 64 i)]
    rfl
  refine ⟨fun i c hc => ?_, ?_, fun hc => h.nonzero (mem_cons_of_mem b hc)⟩
  · rw [hnext]
    exact h.bytes (i + 1) c hc
  · rw [hnext]
    exact h.nul

/-- **The bytes before the NUL are copied**, when there is room for them. -/
theorem copyPath_pathAt {n : ℕ} (h : PathAt k upath path) (hn : path.length < n) : copyPath k n upath = .ok path := by
  induction path generalizing upath n with
  | nil =>
    obtain ⟨n, rfl⟩ := Nat.exists_eq_succ_of_ne_zero (Nat.ne_of_gt hn)
    have hnul := h.nul
    rw [length_nil, BitVec.add_zero] at hnul
    rw [copyPath, hnul]
    rfl
  | cons b path ih =>
    obtain ⟨n, rfl⟩ := Nat.exists_eq_succ_of_ne_zero (Nat.ne_of_gt (Nat.zero_lt_of_lt hn))
    have hb := h.bytes 0 b rfl
    rw [BitVec.add_zero] at hb
    have hne : b ≠ 0 := fun hc => h.nonzero (hc ▸ mem_cons_self)
    rw [copyPath, hb, ok_bind, if_neg hne, ih h.tail (Nat.lt_of_succ_lt_succ hn)]
    rfl

/-- the string in the array: the path, and what follows it up to the next 0 -/
theorem pathString_eq (stale : ℕ → BitVec 8) (h0 : 0 ∉ path) (hlen : path.length ≤ 62) :
    ∃ rest, pathString stale path = path ++ (stale path.length :: rest).takeWhile (· ≠ 0) := by
  have hsplit : List.range 63 =
      List.range path.length ++ path.length :: range' (path.length + 1) (62 - path.length) := by
    have happ := @range'_append_1 0 path.length (63 - path.length)
    rw [Nat.zero_add, Nat.add_sub_cancel' (by omega), show 63 - path.length = 62 - path.length + 1 by omega,
      range'_succ] at happ
    rw [range_eq_range', range_eq_range', happ]
  have hcopied : ((List.range path.length).map fun i => path.getD i (stale i)) = path := by
    apply ext_getElem
    · simp
    · intro i h1 h2
      simp [h2]
  refine ⟨(range' (path.length + 1) (62 - path.length)).map fun i => path.getD i (stale i), ?_⟩
  have hbehind : path.getD path.length (stale path.length) = stale path.length := by simp
  rw [pathString, hsplit, map_append, hcopied, map_cons, hbehind]
  refine takeWhile_append_of_pos fun c hc => ?_
  exact decide_eq_true fun h => h0 (h ▸ hc)

/-- **The name is the path just if a 0 follows it.** -/
theorem pathString_eq_iff (stale : ℕ → BitVec 8) (h0 : 0 ∉ path) (hlen : path.length ≤ 62) :
    pathString stale path = path ↔ stale path.length = 0 := by
  obtain ⟨rest, hrest⟩ := pathString_eq stale h0 hlen
  rw [hrest, append_right_eq_self]
  by_cases hz : stale path.length = 0
  · rw [takeWhile_cons_of_neg (by simp [hz])]
    exact iff_of_true rfl hz
  · rw [takeWhile_cons_of_pos (by simpa using hz)]
    exact iff_of_false (cons_ne_nil _ _) hz

end Path

/-- **The program that execve looks for.** The name is exactly the caller's path just if the array on the stack held a 0
behind it; in that case the other bytes of the array make no difference to the call. -/
theorem execve_path_exact (env : ExecEnv) (trampoline upath : U64) (s : ExecState) (path : List (BitVec 8))
    (hpath : PathAt s.kern upath path) (hlen : path.length ≤ 62) :
    copyPath s.kern 63 upath = .ok path ∧ (pathString env.stale path = path ↔ env.stale path.length = 0) ∧
      ∀ stale, env.stale path.length = 0 → stale path.length = 0 →
        doExecve { env with stale := stale } trampoline upath s = doExecve env trampoline upath s := by
  have hcopy := copyPath_pathAt (n := 63) hpath (by omega)
  refine ⟨hcopy, pathString_eq_iff env.stale hpath.nonzero hlen, fun stale henv hstale => ?_⟩
  have h1 := (pathString_eq_iff env.stale hpath.nonzero hlen).2 henv
  have h2 := (pathString_eq_iff stale hpath.nonzero hlen).2 hstale
  unfold doExecve
  rw [hcopy, ok_bind, ok_bind]
  simp only [h1, h2]
  rfl

/-! ## The file `f` -/

theorem pageState_path : PathAt pageState.kern 0 [0x66] := by
  refine ⟨fun i b hb => ?_, by decide +kernel, by decide⟩
  cases i with
  | zero =>
    rw [getElem?_cons_zero, Option.some.injEq] at hb
    rw [← hb]
    decide +kernel
  | succ i => cases hb

/-- **A path that names a file is not found** because of the bytes behind it in the array. -/
theorem stale_path_not_found : ∃ env upath s path, PathAt s.kern upath path ∧ path.length ≤ 62 ∧
    pathString env.stale path ≠ path ∧ (∃ printed s', doExecve env 0 upath s = .ok (.failed (-2) printed, s')) ∧
    ∃ printed s', doExecve { env with stale := fun _ => 0 } 0 upath s = .ok (.failed (-8) printed, s') := by
  refine ⟨{ badElfEnv with stale := fun _ => 0x66 }, 0, pageState, [0x66], pageState_path, by decide, by decide, ?_, ?_⟩
  · obtain ⟨printed, s', hrun, -⟩ := seen_ok
      (show seen { badElfEnv with stale := fun _ => 0x66 } 0 = some (-2, some 0x66) by decide +kernel)
    exact ⟨printed, s', hrun⟩
  · obtain ⟨printed, s', hrun, -⟩ := seen_ok (show seen badElfEnv 0 = some (-8, none) by decide +kernel)
    exact ⟨printed, s', hrun⟩

/-- a call with a clean array -/
theorem clean_path_exact : pathString badElfEnv.stale [0x66] = [0x66] :=
  ((execve_path_exact badElfEnv 0 0 pageState [0x66] pageState_path (by decide)).2.1).2 rfl

end Uix.Exec
