import BytecodeBridge.Proofs.Frame.UpperBound
import BytecodeBridge.Proofs.Frame.Widths
import BytecodeBridge.Proofs.Lowering.Branches
import BytecodeBridge.Proofs.Lowering.Construction
import BytecodeBridge.Proofs.Lowering.FilterEnds
import BytecodeBridge.Proofs.Lowering.HandlerOrder
import BytecodeBridge.Proofs.Lowering.NullTests
import BytecodeBridge.Proofs.Lowering.Resumption
import BytecodeBridge.Proofs.Lowering.StraightLine
import BytecodeBridge.Proofs.Region.Planning
import BytecodeBridge.Proofs.Slots.Tiling
import BytecodeBridge.Proofs.Pool.Representation
import BytecodeBridge.Proofs.Frame.Symmetry
import BytecodeBridge.Proofs.TypeTable.Preorder
import BytecodeBridge.Proofs.Pool.Decoding
import BytecodeBridge.Proofs.Frame.Separation
import BytecodeBridge.Proofs.Frame.StackMap
import BytecodeBridge.Proofs.Lowering.Arrays
import BytecodeBridge.Proofs.Lowering.SourceOffsets
import BytecodeBridge.Proofs.TypeTable.Canonical
import BytecodeBridge.Proofs.TypeTable.Distance
