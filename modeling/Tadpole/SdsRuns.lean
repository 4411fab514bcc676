import Tadpole.SdsCalls

/-! Whatever is done to an sds string, one call after the other: the block carries the string that the calls make
of it, and nothing is written outside of the block. -/
namespace Tadpole
open SdsBuf

inductive SdsOp
  | catlen (t : Bytes)
  | cpylen (t : Bytes)
  | growzero (len : ℕ)
  | read (room : ℕ) (got : Bytes)
  | cut (n : ℕ)
  | clear
  | updatelen
  | removeFreeSpace
  | makeRoomFor (addlen : ℕ)
  | trim (cset : Bytes)
  | range (start stop : ℤ)
  | mapCase (f : UInt8 → UInt8)
  | map (f : UInt8 → UInt8)
  | catfmt (items : List FmtItem)

namespace SdsOp

def apply (g : Garbage) (s : SdsBuf) : SdsOp → Option SdsBuf
  | catlen t => s.sdscatlen g t
  | cpylen t => s.sdscpylen g t
  | growzero len => s.sdsgrowzero g len
  | read room got => s.readInto g room got
  | cut n => s.sdsIncrLen (-n)
  | clear => s.sdsclear
  | updatelen => s.sdsupdatelen
  | removeFreeSpace => s.sdsRemoveFreeSpace g
  | makeRoomFor addlen => s.sdsMakeRoomFor g addlen
  | trim cset => s.sdstrim cset
  | range start stop => s.sdsrange start stop
  | mapCase f => s.mapCase f
  | map f => s.mapBytes f
  | catfmt items => s.sdscatfmt g items

def result (b : Bytes) : SdsOp → Bytes
  | catlen t => b++t
  | cpylen t => t
  | growzero len => b++List.replicate (len-b.length) NUL
  | read _ got => b++got
  | cut n => b.take (b.length-n)
  | clear => []
  | updatelen => cstr b
  | removeFreeSpace => b
  | makeRoomFor _ => b
  | trim cset => Tadpole.sdstrim b cset
  | range start stop => Tadpole.sdsrange b start stop
  | mapCase f => b.map f
  | map f => b.map f
  | catfmt items => (Tadpole.sdscatfmt b (items.map FmtItem.bytes)).getD b

/-- What the caller has to see to: no more than `peak` bytes are asked for, and where the code counts with an
`int` the string is short enough for it. -/
def Legal (peak : ℕ) (b : Bytes) : SdsOp → Prop
  | catlen t => b.length+t.length ≤ peak
  | cpylen t => t.length ≤ peak
  | growzero len => len ≤ peak
  | read room got => b.length+room ≤ peak ∧ got.length ≤ room
  | cut n => 0 < n ∧ n ≤ b.length
  | updatelen => b.length < 2147483648
  | makeRoomFor addlen => b.length+addlen ≤ peak
  | mapCase _ => b.length < 2147483648
  | range _ stop => b.length < 2147483648 ∧ -2147483648 ≤ stop ∧ stop < 2147483647
  | catfmt items => b.length+(itemsBytes items).length < min peak 2147483648
  | _ => True

/-- One call keeps the string and its block. -/
theorem apply_holds {g : Garbage} {s : SdsBuf} {b : Bytes} (h : s.Holds b) {peak : ℕ} (hpeak : peak < 2305843009213693952)
    (op : SdsOp) (hop : op.Legal peak b) (hcap : s.sdsalloc ≤ 2*peak) :
    ∃ s', op.apply g s = some s' ∧ s'.Holds (op.result b) ∧ s'.sdsalloc ≤ 2*peak := by
  cases op with
  | catlen t =>
    have hop : b.length+t.length ≤ peak := hop
    obtain ⟨s',hs',hh,ha⟩ := h.catlen (g:=g) (t:=t) (by omega)
    exact ⟨s',hs',hh,by omega⟩
  | cpylen t =>
    have hop : t.length ≤ peak := hop
    obtain ⟨s',hs',hh,ha⟩ := h.cpylen (g:=g) (t:=t) (by omega)
    exact ⟨s',hs',hh,by omega⟩
  | growzero len =>
    have hop : len ≤ peak := hop
    obtain ⟨s',hs',hh,ha⟩ := h.growzero (g:=g) len (by omega)
    exact ⟨s',hs',hh,by omega⟩
  | read room got =>
    obtain ⟨hroom,hgot⟩ := hop
    obtain ⟨s',hs',hh,ha⟩ := h.readInto (g:=g) room (by omega) hgot
    exact ⟨s',hs',hh,by omega⟩
  | cut n =>
    obtain ⟨s',hs',hh,ha⟩ := h.decrLen hop.1 hop.2
    exact ⟨s',hs',hh,ha.trans hcap⟩
  | clear =>
    obtain ⟨s',hs',hh,ha⟩ := h.clear
    exact ⟨s',hs',hh,ha.trans hcap⟩
  | updatelen =>
    obtain ⟨s',hs',hh,ha⟩ := h.updatelen hop
    exact ⟨s',hs',hh,ha.trans hcap⟩
  | removeFreeSpace =>
    have hle := h.le
    obtain ⟨s',hs',hh,ha⟩ := h.removeFreeSpace (g:=g) (by omega)
    exact ⟨s',hs',hh,by omega⟩
  | makeRoomFor addlen =>
    have hop : b.length+addlen ≤ peak := hop
    obtain ⟨s',hs',hc,-,ha,-,hnul⟩ := h.roomFor (g:=g) addlen (by omega)
    exact ⟨s',hs',⟨hc,hnul h.nul⟩,by omega⟩
  | trim cset =>
    obtain ⟨s',hs',hh,ha⟩ := h.trim cset
    exact ⟨s',hs',hh,ha.trans hcap⟩
  | range start stop =>
    obtain ⟨s',hs',hh,ha⟩ := h.range start hop.1 hop.2.1 hop.2.2
    exact ⟨s',hs',hh,ha.trans hcap⟩
  | mapCase f =>
    obtain ⟨s',hs',hh,ha⟩ := h.mapCase f hop
    exact ⟨s',hs',hh,ha.trans hcap⟩
  | map f =>
    obtain ⟨s',hs',hh,ha⟩ := h.mapBytes f
    exact ⟨s',hs',hh,ha.trans hcap⟩
  | catfmt items =>
    have hop : b.length+(itemsBytes items).length < min peak 2147483648 := hop
    obtain ⟨s',hs',hh,ha⟩ := h.catfmt (g:=g) items (by omega)
    have hresult : (SdsOp.catfmt items).result b = b++itemsBytes items := by
      have hflat : (items.map FmtItem.bytes).flatten = itemsBytes items := (List.flatMap_def ..).symm
      rw [SdsOp.result,Tadpole.sdscatfmt,hflat,if_pos (by rw [List.length_append]; omega)]
      rfl
    rw [hresult]
    exact ⟨s',hs',hh,by omega⟩

/-- Each call is legal for the string it finds. -/
def LegalRun (peak : ℕ) (b : Bytes) : List (Garbage × SdsOp) → Prop
  | [] => True
  | op::ops => op.2.Legal peak b ∧ LegalRun peak (op.2.result b) ops

theorem run_holds {peak : ℕ} (hpeak : peak < 2305843009213693952) {ops : List (Garbage × SdsOp)} {s : SdsBuf} {b : Bytes}
    (h : s.Holds b) (hcap : s.sdsalloc ≤ 2*peak) (hops : LegalRun peak b ops) :
    ∃ s', ops.foldlM (fun s op => op.2.apply op.1 s) s = some s' ∧
      s'.Holds (ops.foldl (fun b op => op.2.result b) b) ∧ s'.sdsalloc ≤ 2*peak := by
  induction ops generalizing s b with
  | nil => exact ⟨s,rfl,h,hcap⟩
  | cons op ops ih =>
    obtain ⟨s₁,hs₁,hh₁,ha₁⟩ := apply_holds (g:=op.1) h hpeak op.2 hops.1 hcap
    obtain ⟨s',hs',hh,ha⟩ := ih hh₁ ha₁ hops.2
    refine ⟨s',?_,hh,ha⟩
    rw [List.foldlM_cons,hs₁]
    exact hs'

end SdsOp

/-- From `sdsnewlen` on, whatever new memory is filled with: as long as no more than `peak` bytes are asked for,
every call is defined, the length is that of the string and fits its field, the bytes are those of the string with
a NUL behind them, all of it is inside of the block, and the block has room for no more than twice `peak`. -/
theorem sds_runs_as_bytes (g : Garbage) (init : Bytes) (peak : ℕ) (ops : List (Garbage × SdsOp))
    (hpeak : peak < 2305843009213693952) (hinit : init.length ≤ peak) (hops : SdsOp.LegalRun peak init ops) :
    let b := ops.foldl (fun b op => op.2.result b) init
    ∃ s, (sdsnewlen g (some init) init.length).bind (ops.foldlM fun s op => op.2.apply op.1 s) = some s ∧
      s.sdslen = b.length ∧ (∃ rest, s.mem = b++NUL::rest) ∧ s.sdslen ≤ s.sdsalloc ∧
      s.sdsalloc < s.mem.length ∧ s.sdsalloc < s.type.limit ∧ s.sdsalloc ≤ 2*peak := by
  intro b
  obtain ⟨s₀,hs₀,hh₀,ha₀⟩ := sdsnewlen_holds (b:=init) g (by omega)
  obtain ⟨s,hs,hh,ha⟩ := SdsOp.run_holds hpeak hh₀ (by omega) hops
  refine ⟨s,?_,hh.len,hh.nul,?_,hh.room,hh.fits,ha⟩
  · rw [hs₀]
    exact hs
  · rw [sdslen,hh.len]
    exact hh.le

/-- The steps of a string of type 5 that grows to type 8 and back. -/
theorem sds_runs_as_bytes_types : ∃ s, (sdsnewlen (fun _ => 7) (some (str "ab")) 2).bind
    (List.foldlM (fun s op => op.2.apply op.1 s) · [(fun _ => 8,SdsOp.growzero 40),(fun _ => 9,.updatelen),
      (fun _ => 9,.catfmt [.block (str " c"),.char 32]),(fun _ => 9,.trim (str "a ")),(fun _ => 9,.removeFreeSpace)]) =
      some s ∧ s = ⟨.SDS_TYPE_5,3,0,str "b c"++[NUL]⟩ ∧ s.sdslen = 3 := by
  obtain ⟨s,hs,hlen,-⟩ := sds_runs_as_bytes (fun _ => 7) (str "ab") 60 [(fun _ => 8,SdsOp.growzero 40),
    (fun _ => 9,.updatelen),(fun _ => 9,.catfmt [.block (str " c"),.char 32]),(fun _ => 9,.trim (str "a ")),
    (fun _ => 9,.removeFreeSpace)] (by decide) (by decide)
    ⟨show 40 ≤ 60 by decide,show List.length _ < 2147483648 by decide +kernel,
      show List.length _+List.length _ < min 60 2147483648 by decide +kernel,trivial,trivial,trivial⟩
  refine ⟨s,hs,?_,hlen.trans (by decide +kernel)⟩
  refine Option.some.inj (hs.symm.trans ?_)
  decide +kernel

end Tadpole
