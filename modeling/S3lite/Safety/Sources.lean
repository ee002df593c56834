/-
  S3lite.Safety.Sources — which part files a request opens.

  `sourcing`: only those of a manifest that the request has read, while no row changed since.
  Three requests open any (`Request.opening`): GET and HEAD of an object, and the upload of a
  copied part.
-/
import S3lite.Safety.Sequential

namespace S3lite

open Handler

/-- A file that is opened is a part of a manifest read. -/
def Ground.Opens (g : Ground) : Op → Prop
  | .readPart hash => ∃ m ∈ g.read, ∃ p ∈ m.parts, p.hash = hash
  | _ => True

def sourcing : Prog.Protocol Op Op.Res Ground where
  ok := Ground.Opens
  res := fun _ _ _ => True
  next := Ground.next

/-- The operation opens no file. -/
def Op.Shut : Op → Prop
  | .readPart _ => False
  | _ => True

theorem Op.Shut.opens {o : Op} (h : o.Shut) (g : Ground) : g.Opens o := by
  cases o with
  | readPart hash => cases h
  | _ => trivial

section
variable {env : Env} {g : Ground}

theorem Performs.sourced {α : Type} {x : Handler α} (h : Performs Op.Shut x) : Keeps sourcing x g fun _ _ => True :=
  Prog.Follows.mono (Prog.Follows.of_only (P := sourcing) (fun g _ ho => ho.opens g) h g) fun _ _ _ _ _ => trivial

/-- The parts of a manifest that was read may be read in any order. -/
theorem Performs.opens {α : Type} {x : Handler α} {m : Manifest} (hm : m ∈ g.read)
    (h : Performs (fun o => ∃ p ∈ m.parts, o = .readPart p.hash) x) : Keeps sourcing x g fun _ _ => True := by
  refine Prog.Follows.mono (Prog.Follows.of_only_keeping (P := sourcing) (J := fun g => m ∈ g.read) (fun g o hg ho => ?_) h hm)
    fun _ _ _ _ _ => trivial
  obtain ⟨p, hp, rfl⟩ := ho
  exact ⟨⟨m, hg, p, hp, rfl⟩, fun _ _ => hg⟩

theorem shut_consults : ConsultsAmong Op.Shut := by
  intro o ho
  cases o with
  | readPart hash => cases ho
  | _ => trivial

theorem shut_stores : StoresAmong Op.Shut :=
  ⟨⟨shut_consults, trivial, fun _ => trivial, fun _ => trivial, fun _ => trivial, fun _ => trivial⟩, fun _ => trivial, fun _ _ => trivial⟩

theorem sourced_op {o : Op} {Q : o.Res → Ground → Prop} (ho : o.Shut) (hq : ∀ r, Q r (g.next o r)) : Keeps sourcing (op o) g Q :=
  keeps_op.mpr ⟨ho.opens g, fun r _ => hq r⟩

theorem sourced_findVersion {bucket key : Str} {versionId : Option Str} {Q : Manifest → Ground → Prop}
    (hq : ∀ m g', m ∈ g'.read → Q m g') : Keeps sourcing (findVersion bucket key versionId) g Q := by
  cases versionId with
  | none =>
    refine keeps_bind.mpr (sourced_op trivial fun found => keeps_orFail.mpr fun m hm => hq m _ ?_)
    subst hm
    exact List.mem_cons_self ..
  | some vid =>
    refine keeps_bind.mpr (sourced_op trivial fun found => keeps_orFail.mpr fun m hm => hq m _ ?_)
    exact List.mem_append_left _ (Option.mem_toList.mpr (Option.filter_eq_some_iff.mp hm).1)

theorem sourced_resolveSource {source : CopySource} {Q : Manifest → Ground → Prop} (hq : ∀ src g', src ∈ g'.read → Q src g') :
    Keeps sourcing (resolveSource source) g Q := by
  have hread : ∀ found : Option Manifest, ∀ src, (found.filter fun m => m.state = .committed ∧ m.kind = .object) = some src →
      src ∈ found.toList ++ g.read := fun found src h =>
    List.mem_append_left _ (Option.mem_toList.mpr (Option.filter_eq_some_iff.mp h).1)
  unfold resolveSource
  rw [keeps_bind]
  cases source.versionId with
  | none => exact sourced_op trivial fun found => keeps_orFail.mpr fun src hsrc => hq src _ (hread found src hsrc)
  | some vid => exact sourced_op trivial fun found => keeps_orFail.mpr fun src hsrc => hq src _ (hread found src hsrc)

theorem sourced_getOrHeadObject (bucket key : Str) (versionId : Option Str) (headers : HeaderMap) (bodyOnlyHeaders : Bool) :
    Keeps sourcing (getOrHeadObject env bucket key versionId headers bodyOnlyHeaders) g fun _ _ => True := by
  simp only [getOrHeadObject, keeps_bind, keeps_ensure]
  refine (Performs.sourced (performs_requireBucket shut_consults.looks _)).mono fun _ g1 _ => ?_
  refine sourced_findVersion fun m g2 hm _ => keeps_etagOf fun etag _ => ?_
  split
  · exact keeps_ok.mpr trivial
  · simp only [keeps_bind, keeps_ofExcept]
    intro range _
    exact (Performs.opens hm (performs_readBody (fun p hp => ⟨p, hp, rfl⟩) _ _)).mono fun _ _ _ => keeps_ok.mpr trivial

theorem sourced_uploadPartCopy (bucket key uploadId : Str) (partNumber : Nat) (source : CopySource) (headers : HeaderMap) :
    Keeps sourcing (uploadPartCopy env bucket key uploadId partNumber source headers) g fun _ _ => True := by
  simp only [uploadPartCopy, keeps_bind, keeps_ensure, keeps_ofExcept]
  intro _
  refine sourced_resolveSource fun src g1 hsrc range _ => ?_
  refine (Performs.opens hsrc (performs_readRange _ _ _ fun p hp => ⟨p, hp, rfl⟩)).mono fun payload g2 _ => ?_
  refine sourced_op trivial fun written => sourced_op trivial fun r => keeps_mapErr.mpr fun effect _ => ?_
  refine (Performs.sourced (performs_gcFreedParts shut_stores.toPutsAmong _)).mono fun _ g3 _ => sourced_op trivial fun now => ?_
  exact keeps_ok.mpr trivial

theorem request_sourced (r : Request) : Keeps sourcing (r.handler env) g fun _ _ => True := by
  have h := shut_stores
  by_cases hlooking : r.looking = true
  · exact (looking_performs h.consults.looks hlooking).sourced
  by_cases hconfiguring : r.configuring = true
  · refine (configuring_performs h.consults (fun o ho => ?_) hconfiguring).sourced
    cases o with
    | metaOp o => trivial
    | _ => cases ho
  by_cases hediting : r.editing = true
  · refine (editing_performs h.consults.looks (fun o ho => ?_) hediting).sourced
    cases o with
    | metaOp o => trivial
    | _ => cases ho
  by_cases hremoving : r.removing = true
  · exact (removing_performs h.toPutsAmong (fun _ => trivial) hremoving).sourced
  by_cases hcompleting : r.completing = true
  · exact (completing_performs h.toPutsAmong (fun _ _ => trivial) hcompleting).sourced
  cases r with
  | getObject bucket key versionId headers => exact sourced_getOrHeadObject ..
  | headObject bucket key versionId headers => exact sourced_getOrHeadObject ..
  | uploadPartCopy bucket key uploadId partNumber source headers => exact sourced_uploadPartCopy ..
  | createMultipartUpload | uploadPart | putObject | copyObject => exact (storing_performs h rfl fun hopen => by cases hopen).sourced
  | _ => first | exact absurd rfl hlooking | exact absurd rfl hconfiguring | exact absurd rfl hediting | exact absurd rfl hremoving |
    exact absurd rfl hcompleting

theorem sweep_sourced : Keeps sourcing sweepOnce g fun _ _ => True := by
  refine Performs.sourced ?_
  have hsweep : ∀ names, SweepsAmong Op.Shut names := fun _ =>
    ⟨shut_consults.looks, trivial, fun _ => trivial, fun _ _ _ _ _ => trivial⟩
  exact performs_sweepOnce hsweep trivial (fun _ => trivial) (fun _ => trivial) fun _ => trivial

end

end S3lite
