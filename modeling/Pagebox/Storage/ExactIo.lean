import Pagebox.Storage.FilePages

/-!
# Writes that the system cuts short

`pwrite_all` and `pwritev2_dsync_all` of `wal/src/io.rs` and `pwrite_exact` of
`storage/src/page_store.rs` repeat a positioned write until all bytes are written,
whatever the system makes of each call.
-/

namespace Pagebox.Storage.FilePageStore

open Pagebox.Base

inductive Answer
  | interrupted
  | failed
  | wrote (n : Nat)
  deriving DecidableEq

/-- Whether `Ok` is returned, and the file; `none` while the loop has not ended. -/
def pwriteAll (data : Bytes) (offset : Nat) : Nat → Bytes → List Answer → Option (Bool × Bytes)
  | done, file, [] => if data.length ≤ done then some (true, file) else none
  | done, file, answer :: answers =>
    if data.length ≤ done then some (true, file)
    else match answer with
      | .interrupted => pwriteAll data offset done file answers
      | .failed | .wrote 0 => some (false, file)
      | .wrote n =>
        let k := min n (data.length - done)
        pwriteAll data offset (done + k)
          (pwrite file (offset + done) ((data.drop done).take k)) answers

variable {ps : PageSize} {file data : Bytes} {offset done : Nat}

/-- The file after the first `n` bytes were written. -/
def written (file data : Bytes) (offset n : Nat) : Bytes :=
  if n = 0 then file else pwrite file offset (data.take n)

theorem pwrite_written (hdone : done ≤ data.length) {k : Nat} (hk : 0 < k) :
    pwrite (written file data offset done) (offset + done) ((data.drop done).take k) =
      written file data offset (done + k) := by
  rw [written, written, if_neg (show done + k ≠ 0 by omega), List.take_add]
  split
  · rename_i hzero
    simp [hzero]
  · have hwrite := pwrite_pwrite file offset (data.take done) ((data.drop done).take k)
    rwa [List.length_take_of_le hdone] at hwrite

/-- The loop returns once it has had enough answers, with a first part of the data
written, and all of it if the result is `Ok`. -/
theorem pwriteAll_cases (file : Bytes) (offset : Nat) (answers : List Answer)
    (hdone : done ≤ data.length) :
    (∃ n ok, pwriteAll data offset done (written file data offset done) answers =
      some (ok, written file data offset n) ∧ n ≤ data.length ∧ (ok = true → n = data.length)) ∨
    pwriteAll data offset done (written file data offset done) answers = none ∧
      done + answers.countP (· ≠ .interrupted) < data.length := by
  induction answers generalizing done with
  | nil =>
    by_cases hle : data.length ≤ done
    · exact .inl ⟨done, true, if_pos hle, hdone, fun _ => by omega⟩
    · exact .inr ⟨if_neg hle, by simpa using hle⟩
  | cons answer answers ih =>
    by_cases hle : data.length ≤ done
    · exact .inl ⟨done, true, by cases answer <;> exact if_pos hle, hdone, fun _ => by omega⟩
    match answer with
    | .interrupted => simpa [pwriteAll, hle] using ih hdone
    | .failed | .wrote 0 => exact .inl ⟨done, false, by simp [pwriteAll, hle], hdone, by simp⟩
    | .wrote (n + 1) =>
      simp only [pwriteAll, if_neg hle]
      rw [pwrite_written hdone (by omega), List.countP_cons_of_pos (by simp)]
      refine (ih (by omega)).imp id fun ⟨hnone, hcount⟩ => ⟨hnone, ?_⟩
      omega

def writePageFor (s : FilePageStore ps) (pid : Nat) (page : Page ps) (answers : List Answer) :
    Option (Bool × FilePageStore ps) :=
  (pwriteAll page.bytes (pageOffset ps pid) 0 s.file answers).map
    (Prod.map id fun file => { s with file })

/-- Whatever the system answers, a `write_page` that returns `Ok` has written the page
as one write, any other leaves every other page as it was or as the whole write would
leave it, and it returns when as many calls as the page has bytes were not interrupted. -/
theorem writePage_exact (s : FilePageStore ps) (pid : Nat) (page : Page ps)
    (answers : List Answer) :
    (∀ s', s.writePageFor pid page answers = some (true, s') → s' = s.writePage pid page) ∧
    (∀ ok s', s.writePageFor pid page answers = some (ok, s') →
      (∀ q, pageOffset ps q ≠ pageOffset ps pid → s'.readPage q = s.readPage q) ∨
        ∀ q, pageOffset ps q ≠ pageOffset ps pid →
          s'.readPage q = (s.writePage pid page).readPage q) ∧
    (ps.bytes ≤ answers.countP (· ≠ .interrupted) → (s.writePageFor pid page answers).isSome) := by
  have hsize := page.size
  have hpos := bytes_pos ps
  rcases pwriteAll_cases s.file (pageOffset ps pid) answers (Nat.zero_le page.bytes.length)
    with ⟨n, ok, hloop, hn, hok⟩ | ⟨hloop, hcount⟩
  · rw [writePageFor, show pwriteAll _ _ 0 s.file answers = _ from hloop]
    refine ⟨?_, ?_, fun _ => rfl⟩
    · rintro s' ⟨⟩
      rw [hok rfl, written, if_neg (by omega), List.take_length]
      rfl
    · rintro _ s' ⟨⟩
      by_cases hzero : n = 0
      · subst hzero
        exact .inl fun _ _ => rfl
      refine .inr fun q hne => ?_
      have hpart : (page.bytes.take n).length ≤ ps.bytes := by simp [hsize]
      rw [readPage, readPage, writePage, written, if_neg hzero]
      refine pread_pwrite_congr hpos ((pageOffset_disjoint hne).imp_right fun hle => ?_)
      rw [hsize]
      exact ⟨by omega, hle⟩
  · rw [writePageFor, show pwriteAll _ _ 0 s.file answers = none from hloop]
    exact ⟨by simp, by simp, fun h => by omega⟩

end Pagebox.Storage.FilePageStore
