import KernelFront.Cache.Concurrent
import KernelFront.Main
import KernelFront.Proofs.Cache.CycleCheck
import KernelFront.Proofs.Cache.Demand
import KernelFront.Proofs.Cache.Resolving
import KernelFront.Proofs.Completeness
import KernelFront.Proofs.Faultless
import KernelFront.Proofs.Histories
import KernelFront.Proofs.Inference.Constants
import KernelFront.Proofs.Inference.FirstStores
import KernelFront.Proofs.Inference.Hygiene
import KernelFront.Proofs.Inference.Recorded
import KernelFront.Proofs.Inference.Repeats
import KernelFront.Proofs.Inference.Returns
import KernelFront.Proofs.Inference.HostSelectors
import KernelFront.Proofs.InternalErrors
import KernelFront.Proofs.Lines
import KernelFront.Proofs.Linking
import KernelFront.Proofs.Promotion
import KernelFront.Proofs.Ranges
import KernelFront.Proofs.ReadBack
import KernelFront.Proofs.Rebinding
import KernelFront.Proofs.Scoping
import KernelFront.Proofs.Sequences
import KernelFront.Proofs.TypeNames
import KernelFront.Proofs.TypeSetting
import KernelFront.Tree.Builder
import KernelFront.Tree.Outline
import KernelFront.Ty.Kind
