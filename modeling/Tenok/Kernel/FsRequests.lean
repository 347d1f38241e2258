import Tenok.Kernel.Filesysd

/-!
The requests of the file system daemon are a prefix code: from the bytes of several ones in
its pipe it reads each as it was sent, and there are always enough bytes for its next read.
-/
namespace Tenok

section Encoding
variable {a b fd fd' : Word} {l x y : List Byte} {r r' : FsRequest}

@[simp] theorem length_wordBytes (w : Word) : (wordBytes w).length = 4 := rfl

@[simp] theorem wordOf_wordBytes (w : Word) : wordOf (wordBytes w) = w := by
  refine BitVec.eq_of_getLsbD_eq fun i hi => ?_
  simp only [wordBytes, wordOf, BitVec.getLsbD_append, BitVec.getLsbD_extractLsb']
  grind

theorem wordBytes_wordOf (h : l.length = 4) : wordBytes (wordOf l) = l := by
  match l, h with
  | [a, b, c, d], _ =>
      simp only [wordOf, wordBytes, List.cons.injEq, and_true]
      refine ⟨?_, ?_, ?_, ?_⟩
      all_goals
        refine BitVec.eq_of_getLsbD_eq fun i hi => ?_
        simp only [BitVec.getLsbD_extractLsb', BitVec.getLsbD_append]
        grind

theorem wordBytes_append (h : wordBytes a ++ x = wordBytes b ++ y) : a = b ∧ x = y := by
  obtain ⟨hab, hxy⟩ := List.append_inj h rfl
  exact ⟨by rw [← wordOf_wordBytes a, hab, wordOf_wordBytes], hxy⟩

def FsRequest.fsCmd : FsRequest → Word
  | .createFile _ _ => fsCreateFile
  | .openFile _ => fsOpenFile
  | .openDirectory _ => fsOpenDir
  | .mount _ _ => fsMount
  | .getcwd _ _ => fsGetCwd
  | .chdir _ => fsChangeDir

def FsRequest.args : FsRequest → List Byte
  | .createFile path fileType => wordBytes path ++ [fileType]
  | .openFile path | .openDirectory path | .chdir path => wordBytes path
  | .mount source target => wordBytes source ++ wordBytes target
  | .getcwd path len => wordBytes path ++ wordBytes len

theorem FsRequest.bytes_eq (fd : Word) (r : FsRequest) :
    r.bytes fd = wordBytes r.fsCmd ++ (wordBytes fd ++ r.args) := by
  cases r <;> rfl

theorem FsRequest.length_bytes (fd : Word) (r : FsRequest) :
    12 ≤ (r.bytes fd).length ∧ (r.bytes fd).length ≤ 16 := by
  rw [FsRequest.bytes_eq]
  cases r <;> simp [FsRequest.args]

theorem FsRequest.args_append (hcmd : r.fsCmd = r'.fsCmd) (h : r.args ++ x = r'.args ++ y) :
    r = r' ∧ x = y := by
  cases r <;> cases r' <;> simp only [FsRequest.fsCmd] at hcmd <;>
    try exact absurd hcmd (by decide)
  case createFile.createFile path fileType path' fileType' =>
    simp only [FsRequest.args, List.append_assoc] at h
    obtain ⟨rfl, htype⟩ := wordBytes_append h
    obtain ⟨rfl, rfl⟩ := List.cons.inj htype
    exact ⟨rfl, rfl⟩
  case mount.mount | getcwd.getcwd =>
    simp only [FsRequest.args, List.append_assoc] at h
    obtain ⟨rfl, hsecond⟩ := wordBytes_append h
    obtain ⟨rfl, rfl⟩ := wordBytes_append hsecond
    exact ⟨rfl, rfl⟩
  all_goals
    simp only [FsRequest.args] at h
    obtain ⟨rfl, rfl⟩ := wordBytes_append h
    exact ⟨rfl, rfl⟩

theorem FsRequest.bytes_append (h : r.bytes fd ++ x = r'.bytes fd' ++ y) :
    r = r' ∧ fd = fd' ∧ x = y := by
  simp only [FsRequest.bytes_eq, List.append_assoc] at h
  obtain ⟨hcmd, hrest⟩ := wordBytes_append h
  obtain ⟨rfl, hargs⟩ := wordBytes_append hrest
  obtain ⟨rfl, rfl⟩ := FsRequest.args_append hcmd hargs
  exact ⟨rfl, rfl, rfl⟩

namespace Filesysd
variable {d : Filesysd} {buf : List Byte}

/-- The daemon is at its second argument only for commands that have one. -/
def Proper : Filesysd → Prop
  | .readPath fileCmd _ => known fileCmd = true
  | .readLast fileCmd _ _ => fileCmd = fsCreateFile ∨ fileCmd = fsMount ∨ fileCmd = fsGetCwd
  | _ => True

theorem known_fsCmd (r : FsRequest) : known r.fsCmd = true := by
  cases r <;> simp [known, FsRequest.fsCmd]

theorem known_iff {w : Word} (h : known w = true) (hopen : w ≠ fsOpenFile) (hdir : w ≠ fsOpenDir)
    (hchdir : w ≠ fsChangeDir) : w = fsCreateFile ∨ w = fsMount ∨ w = fsGetCwd := by
  simpa [known, hopen, hdir, hchdir] using h

theorem afterRead_consumed (hproper : d.Proper) (hsize : d.readSize = some buf.length)
    (h : d.consumed ++ (buf ++ x) = r.bytes fd ++ y) :
    (d.afterRead buf).consumed = d.consumed ++ buf ∧ (d.afterRead buf).Proper := by
  cases d with
  | readFileCmd =>
      have hlen : buf.length = 4 := by simpa [readSize, eq_comm] using hsize
      exact ⟨wordBytes_wordOf hlen, trivial⟩
  | readReplyFd fileCmd =>
      have hlen : buf.length = 4 := by simpa [readSize, eq_comm] using hsize
      rw [FsRequest.bytes_eq, List.append_assoc] at h
      obtain ⟨rfl, -⟩ := wordBytes_append h
      simp only [afterRead, known_fsCmd, if_true]
      exact ⟨congrArg (wordBytes r.fsCmd ++ ·) (wordBytes_wordOf hlen), known_fsCmd r⟩
  | readPath fileCmd replyFd =>
      have hlen : buf.length = 4 := by simpa [readSize, eq_comm] using hsize
      have hbytes := wordBytes_wordOf hlen
      simp only [afterRead]
      split
      · next hcmd =>
          subst hcmd
          exact ⟨by simp [consumed, FsRequest.bytes, requestOpenFile, requestBytes, hbytes],
            trivial⟩
      · split
        · next hcmd =>
            subst hcmd
            exact ⟨by simp [consumed, FsRequest.bytes, requestOpenDirectory, requestBytes, hbytes],
              trivial⟩
        · split
          · next hcmd =>
              subst hcmd
              exact ⟨by simp [consumed, FsRequest.bytes, requestChdir, requestBytes, hbytes],
                trivial⟩
          · next hopen hdir hchdir =>
              exact ⟨by simp [consumed, hbytes], known_iff hproper hopen hdir hchdir⟩
  | readLast fileCmd replyFd path =>
      simp only [afterRead]
      split
      · next hcmd =>
          subst hcmd
          have hlen : buf.length = 1 := by simpa [readSize, eq_comm] using hsize
          obtain ⟨byte, rfl⟩ := List.length_eq_one_iff.mp hlen
          exact ⟨by simp [consumed, FsRequest.bytes, requestCreateFile, requestBytes], trivial⟩
      · next hcreate =>
          have hlen : buf.length = 4 := by simpa [readSize, hcreate, eq_comm] using hsize
          have hbytes := wordBytes_wordOf hlen
          split
          · next hcmd =>
              subst hcmd
              exact ⟨by simp [consumed, FsRequest.bytes, requestMount, requestBytes, hbytes],
                trivial⟩
          · next hmount =>
              obtain rfl := (hproper.resolve_left hcreate).resolve_left hmount
              exact ⟨by simp [consumed, FsRequest.bytes, requestGetcwd, requestBytes, hbytes],
                trivial⟩
  | call replyFd request => cases hsize
  | write replyFd result => cases hsize

theorem readSize_le {n : Nat} (hproper : d.Proper) (hsize : d.readSize = some n)
    (h : d.consumed ++ x = r.bytes fd ++ y) : n ≤ x.length := by
  have hlen := congrArg List.length h
  have hbound := r.length_bytes fd
  simp only [List.length_append] at hlen
  cases d with
  | readFileCmd | readReplyFd fileCmd | readPath fileCmd replyFd =>
      obtain rfl := Option.some.inj hsize
      simp only [consumed, List.length_append, List.length_nil, length_wordBytes] at hlen
      omega
  | readLast fileCmd replyFd path =>
      obtain rfl := Option.some.inj hsize
      have hcmd : fileCmd = r.fsCmd := by
        rw [FsRequest.bytes_eq, consumed, List.append_assoc, List.append_assoc] at h
        exact (wordBytes_append h).1
      have hargs := congrArg List.length (FsRequest.bytes_eq fd r)
      simp only [consumed, List.length_append, length_wordBytes] at hlen hargs
      subst hcmd
      -- commands with two arguments have more than twelve bytes
      cases r with
      | createFile path fileType =>
          simp only [FsRequest.fsCmd, if_true]
          simp only [FsRequest.args, List.length_append, length_wordBytes,
            List.length_singleton] at hargs
          omega
      | mount | getcwd =>
          simp only [FsRequest.args, List.length_append, length_wordBytes] at hargs
          split <;> omega
      | openFile | openDirectory | chdir =>
          simp only [Proper, FsRequest.fsCmd] at hproper
          exact absurd hproper (by decide)
  | call replyFd request => cases hsize
  | write replyFd result => cases hsize

theorem readSize_pos {n : Nat} (hsize : d.readSize = some n) : 0 < n := by
  cases d with
  | readFileCmd | readReplyFd fileCmd | readPath fileCmd replyFd =>
      obtain rfl := Option.some.inj hsize
      decide
  | readLast fileCmd replyFd path =>
      obtain rfl := Option.some.inj hsize
      split <;> decide
  | call replyFd request => cases hsize
  | write replyFd result => cases hsize

theorem afterRead_ne_write {n : Nat} {fd result : Word} (hsize : d.readSize = some n) :
    d.afterRead buf ≠ .write fd result := by
  cases d with
  | readFileCmd => simp [afterRead]
  | readReplyFd fileCmd | readPath fileCmd replyFd | readLast fileCmd replyFd path =>
      simp only [afterRead]
      split_ifs <;> exact Filesysd.noConfusion
  | call replyFd request => cases hsize
  | write replyFd result => cases hsize

/-- Each read brings the daemon closer to the end of the request by less than it takes. -/
theorem rank_afterRead (hsize : d.readSize = some buf.length) :
    (d.afterRead buf).rank < d.rank + buf.length := by
  cases d with
  | readFileCmd =>
      have hlen : buf.length = 4 := by simpa [readSize, eq_comm] using hsize
      simp [afterRead, rank, hlen]
  | readReplyFd fileCmd | readPath fileCmd replyFd =>
      have hlen : buf.length = 4 := by simpa [readSize, eq_comm] using hsize
      simp only [afterRead]
      split_ifs <;> simp only [rank] <;> omega
  | readLast fileCmd replyFd path =>
      have hlen : (if fileCmd = fsCreateFile then 1 else 4) = buf.length :=
        Option.some.inj hsize
      simp only [afterRead]
      split_ifs at hlen ⊢ <;> simp only [rank] <;> omega
  | call replyFd request => cases hsize
  | write replyFd result => cases hsize

end Filesysd

section Streams
variable {ι : Type} (fdOf : ι → Word) (request : ι → FsRequest) {l : List ι}

theorem requests_eq_nil (h : (l.flatMap fun i => (request i).bytes (fdOf i)) = []) : l = [] := by
  cases l with
  | nil => rfl
  | cons i rest =>
      have hlen := congrArg List.length h
      have hbound := (request i).length_bytes (fdOf i)
      simp only [List.flatMap_cons, List.length_append, List.length_nil] at hlen
      omega

theorem requests_head (h : r.bytes fd ++ x = l.flatMap fun i => (request i).bytes (fdOf i)) :
    ∃ i rest, l = i :: rest ∧ fdOf i = fd ∧ request i = r ∧
      x = rest.flatMap fun i => (request i).bytes (fdOf i) := by
  cases l with
  | nil =>
      have hlen := congrArg List.length h
      have hbound := r.length_bytes fd
      simp only [List.flatMap_nil, List.length_append, List.length_nil] at hlen
      omega
  | cons i rest =>
      rw [List.flatMap_cons] at h
      obtain ⟨rfl, rfl, hrest⟩ := FsRequest.bytes_append h
      exact ⟨i, rest, rfl, rfl, rfl, hrest⟩

theorem requests_afterRead {d : Filesysd} {buf : List Byte} (hproper : d.Proper)
    (hsize : d.readSize = some buf.length)
    (h : d.consumed ++ (buf ++ x) = l.flatMap fun i => (request i).bytes (fdOf i)) :
    (d.afterRead buf).Proper ∧
      (d.afterRead buf).consumed ++ x = l.flatMap fun i => (request i).bytes (fdOf i) := by
  cases l with
  | nil =>
      have hlen := congrArg List.length h
      have hpos := Filesysd.readSize_pos hsize
      simp only [List.flatMap_nil, List.length_append, List.length_nil] at hlen
      omega
  | cons i rest =>
      rw [List.flatMap_cons] at h ⊢
      obtain ⟨hconsumed, hproper'⟩ := Filesysd.afterRead_consumed hproper hsize h
      exact ⟨hproper', by rw [hconsumed, List.append_assoc, h]⟩

end Streams

end Encoding

theorem toNat_threadPipeFd {t : Tid} (ht : t < threadMax) : (threadPipeFd t).toNat = t + 3 := by
  have hlt : t + 3 < 2 ^ 32 := (Nat.add_lt_add_right ht 3).trans (by decide)
  rw [threadPipeFd, BitVec.toNat_ofNat, Nat.mod_eq_of_lt hlt]

theorem FsSys.pipeOwner_threadPipeFd {t : Tid} (ht : t < threadMax) :
    pipeOwner (threadPipeFd t) = some t := by
  rw [pipeOwner, toNat_threadPipeFd ht, if_pos ⟨Nat.le_add_left 3 t, Nat.add_lt_add_right ht 3⟩,
    Nat.add_sub_cancel]

end Tenok
